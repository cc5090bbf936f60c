import LiveMarkup.Proofs.Live.Ties
import LiveMarkup.Proofs.Live.Updates

/-!
# Cleanups that are kept

A slot keeps the cleanup that its effect has handed back until a flush turns to the effect of that
slot again, or the element is detached; either puts the cleanup on the stack, to be run. So an
effect is live as long as its element stays connected. It is not live any more once the element has
been detached, and connecting the element again does not make it so: the dependencies that the slot
notes outlive the cleanup, and the effect is not run again before they differ.
-/

namespace LiveMarkup

variable {H : Type}

/-! ## Where effects stand -/

/-- Where an activity stands: if it keeps its undoing in a slot then on the flush that has started
it; if it makes the first value of a slot then on the hook that waits for it; and if it keeps
anything then on something. A flush is of one of `count` instances. -/
structure Activity.Foot (count : Nat) (a : Activity H) (stack : List (Activity H)) : Prop where
  keeps : ∀ k, a.keep? = some k → ∃ rest below, stack = .effects k.owner rest :: below
  waits : ∀ i k type, a.kept? = some (.first i k type) →
    ∃ h next computed purpose below, stack = .render i (.hook h next) computed k purpose :: below ∧
      h.first?.map Prod.fst = some type
  stands : a.kept? ≠ none → stack ≠ []
  there : ∀ i rest, a = .effects i rest → i < count

/-- Every activity on a stack stands where it has to. -/
def Activity.Footed (count : Nat) : List (Activity H) → Prop
  | [] => True
  | a :: stack => a.Foot count stack ∧ Footed count stack

namespace Activity

variable {count : Nat} {a b : Activity H} {stack : List (Activity H)}

theorem Foot.mono {count' : Nat} (le : count ≤ count') (foot : a.Foot count stack) :
    a.Foot count' stack :=
  { foot with there := fun i rest eq => Nat.lt_of_lt_of_le (foot.there i rest eq) le }

theorem Footed.mono {count' : Nat} (le : count ≤ count') (footed : Footed count stack) :
    Footed count' stack := by
  induction stack with
  | nil => trivial
  | cons a stack ih => exact ⟨footed.1.mono le, ih footed.2⟩

theorem ne_effects (no_effects : a.isEffects = false) (i : Nat) (rest : List (Nat × Program H)) :
    a ≠ .effects i rest := by
  rintro rfl
  cases no_effects

/-- An activity that keeps nothing may stand anywhere. -/
theorem Foot.of_nothing (nothing : a.kept? = none) (no_effects : a.isEffects = false) :
    a.Foot count stack where
  keeps k keeps := by
    rw [keep?, nothing] at keeps
    cases keeps
  waits i k type keeps := by
    rw [nothing] at keeps
    cases keeps
  stands keeps := absurd nothing keeps
  there i rest eq := absurd eq (ne_effects no_effects i rest)

theorem Foot.of_effects {i : Nat} {rest : List (Nat × Program H)} (lt : i < count) :
    (Activity.effects i rest).Foot count stack where
  keeps k keeps := nomatch keeps
  waits j k type keeps := nomatch keeps
  stands keeps := absurd rfl keeps
  there j rest' eq := by
    cases eq
    exact lt

/-- What goes on in the place of an activity stands where that one did. -/
theorem Foot.heir (foot : a.Foot count stack) (heir : a.Heir b) : b.Foot count stack where
  keeps k keeps := foot.keeps k (heir.keep ▸ keeps)
  waits i k type keeps := foot.waits i k type (heir.kept ▸ keeps)
  stands keeps := foot.stands (heir.kept ▸ keeps)
  there i rest eq := absurd eq (ne_effects heir.effects i rest)

theorem Footed.heir (footed : Footed count (a :: stack)) (heir : a.Heir b) :
    Footed count (b :: stack) :=
  ⟨footed.1.heir heir, footed.2⟩

theorem Footed.programs (footed : Footed count stack) (ps : List (Program H)) :
    Footed count (ps.map (Activity.program · none) ++ stack) := by
  induction ps with
  | nil => exact footed
  | cons p ps ih => exact ⟨.of_nothing rfl rfl, ih⟩

end Activity

namespace World

variable {w w' : World H} {i slot : Nat}

/-- Effects stand on flushes, and flushes are of instances that are there. -/
abbrev Footed (w : World H) : Prop := Activity.Footed w.ties.length w.stack

/-- What is called stands on what has called it. -/
theorem foot_called {a b : Activity H} {count : Nat} {stack : List (Activity H)}
    (called : b.Called a)
    (begins : ∀ keep ∈ a.kept?, ∃ p, a = .program p (some keep) ∧ w.Begins keep p b) :
    a.Foot count (b :: stack) where
  keeps k keeps := by
    rw [called.keep] at keeps
    cases keeps
  waits i k type keeps := by
    obtain ⟨p, -, begins⟩ := begins _ keeps
    cases begins with
    | first top found pending =>
      obtain ⟨first, -⟩ := Option.filter_eq_some_iff.mp pending
      exact ⟨_, _, _, _, stack, rfl, by rw [first]; rfl⟩
  stands _ := List.cons_ne_nil _ _
  there i rest eq := absurd eq (Activity.ne_effects called.effects i rest)

theorem footed_handled (footed : w.Footed) (handled : Handled w w') : w'.Footed := by
  unfold Footed at footed ⊢
  cases handled with
  | ends top left ties =>
    rw [top] at footed
    rw [left, ties]
    exact footed.2
  | resumes top left heir ties =>
    rw [top] at footed
    rw [left, ties]
    exact footed.heir heir
  | calls top left heir called ties begins =>
    rw [top] at footed
    rw [left, ties]
    exact ⟨foot_called called begins, footed.heir heir⟩
  | flushes top left here ties =>
    rw [left, ties]
    refine ⟨.of_effects ?_, footed⟩
    rw [isConnected_eq] at here
    refine Nat.lt_of_not_le fun beyond => ?_
    rw [List.getElem?_eq_none beyond] at here
    cases here
  | @turns j slot effect rest stack _ top left ties =>
    rw [top] at footed
    rw [left, ties, List.length_modify]
    have flush : Activity.Footed w.ties.length (.effects j rest :: stack) :=
      ⟨.of_effects (footed.1.there _ _ rfl), footed.2⟩
    have started : Activity.Footed w.ties.length
        (.program effect (some (.cleanup ⟨j, slot⟩)) :: .effects j rest :: stack) := by
      refine ⟨⟨fun k keeps => ?_, fun j k type keeps => (nomatch keeps),
        fun _ => List.cons_ne_nil _ _, fun j' rest' eq => (nomatch eq)⟩, flush⟩
      cases keeps
      exact ⟨rest, stack, rfl⟩
    exact started.programs _
  | handsBack top left ties =>
    rw [top] at footed
    rw [left, ties, List.length_modify]
    exact footed.2
  | connects top left ties =>
    rw [top] at footed
    rw [left, ties, List.length_modify]
    exact footed.heir (.of_plain rfl rfl rfl)
  | @detaches j x next keep stack _ top held here left ties =>
    rw [top] at footed
    rw [left, ties, List.length_modify]
    have goes_on : Activity.Footed w.ties.length (.program next keep :: stack) :=
      footed.heir (.of_plain rfl rfl rfl)
    exact goes_on.programs _

theorem ties_create (w : World H) (e : Element H) :
    (w.create e).ties = w.ties ++ [⟨false, []⟩] := by
  rw [ties, create, List.map_append]
  rfl

theorem kept_drop (w : World H) (i : Nat) : Kept w (w.drop i) := kept_modify w i fun _ => rfl

theorem footed_next (footed : w.Footed) (next : Next w w') : w'.Footed := by
  cases next with
  | step step => exact footed_handled footed (handled step)
  | create e =>
    refine Activity.Footed.mono ?_ footed
    rw [ties_create, List.length_append]
    exact Nat.le_add_right _ _
  | drop j =>
    have kept := kept_drop w j
    rw [Footed, kept.stack, kept.ties]
    exact footed
  | call p rest => exact ⟨.of_nothing rfl rfl, footed⟩

theorem Reachable.footed (reached : Reachable w) : w.Footed := by
  induction reached with
  | fresh => trivial
  | next _ next ih => exact footed_next ih next

/-! ## Moves that matter to a cleanup -/

/-- A connected instance is detached. -/
inductive Detaches (i : Nat) (w w' : World H) : Prop
  | intro {x : Instance H} {next : Program H} {keep : Option Keep}
    {stack : List (Activity H)}
    (top : w.stack = .program (.request i .disconnect next) keep :: stack)
    (held : w.held? i = some x) (here : x.connected = true) (step : w.step? = some w')

/-- An effect ends and hands back the cleanup that its slot keeps from now on. -/
inductive HandsBack (i slot : Nat) (c : Program H) (w w' : World H) : Prop
  | intro {stack : List (Activity H)}
    (top : w.stack = .program (.done (some c)) (some (.cleanup ⟨i, slot⟩)) :: stack)
    (step : w.step? = some w')

/-- A flush turns to the effect of a slot. -/
inductive TurnsTo (i slot : Nat) (w w' : World H) : Prop
  | intro {effect : Program H} {rest : List (Nat × Program H)} {stack : List (Activity H)}
    (top : w.stack = .effects i ((slot, effect) :: rest) :: stack) (step : w.step? = some w')

/-- The program `c` is on the stack, to be run before what is below it goes on. -/
def IsUnderWay (c : Program H) (w : World H) : Prop :=
  ∃ above below, below ≠ [] ∧ w.stack = above ++ .program c none :: below

theorem cleanup?_congr (same : w'.ties = w.ties) : w'.cleanup? i slot = w.cleanup? i slot := by
  rw [cleanup?, cleanup?, same]

theorem cleanup?_modify {j : Nat} {change : Ties H → Ties H}
    (changed : w'.ties = w.ties.modify j change) :
    w'.cleanup? i slot =
      (w.ties[i]?).bind fun t =>
        Places.get? (if j = i then change t else t).cleanups slot := by
  rw [cleanup?, changed, List.getElem?_modify]
  cases w.ties[i]? with
  | none => rfl
  | some t =>
    simp only [Option.bind_some]
    split
    · rfl
    · rfl

/-- A change that leaves the cleanup of the slot alone. -/
theorem cleanup?_modify_keep {j : Nat} {change : Ties H → Ties H}
    (changed : w'.ties = w.ties.modify j change)
    (keeps : j = i → ∀ t, Places.get? (change t).cleanups slot = Places.get? t.cleanups slot) :
    w'.cleanup? i slot = w.cleanup? i slot := by
  rw [cleanup?_modify changed, cleanup?]
  refine congrArg _ (funext fun t => ?_)
  split
  · next same => exact keeps same t
  · rfl

theorem cleanup?_modify_none {change : Ties H → Ties H}
    (changed : w'.ties = w.ties.modify i change)
    (empty : ∀ t, Places.get? (change t).cleanups slot = none) : w'.cleanup? i slot = none := by
  rw [cleanup?_modify changed]
  cases w.ties[i]? with
  | none => rfl
  | some t => simpa using empty t

theorem Detaches.cleanup?_eq_none (detaches : Detaches i w w') : w'.cleanup? i slot = none := by
  obtain ⟨top, held, here, step⟩ := detaches
  exact cleanup?_modify_none (step_disconnect top held here step).2 fun _ => rfl

/-- Detaching an element runs the cleanups that its slots keep. -/
theorem Detaches.isUnderWay {c : Program H} (detaches : Detaches i w w')
    (kept : w.cleanup? i slot = some c) : w'.IsUnderWay c := by
  obtain @⟨x, next, keep, stack, top, held, here, step⟩ := detaches
  rw [cleanup?, ties_of_found (found_of_held held)] at kept
  have kept : Places.get? x.slots.cleanups slot = some c := kept
  obtain ⟨before, after, split⟩ := List.append_of_mem (Places.mem_entries kept)
  have left := (step_disconnect top held here step).1
  rw [split, List.map_append, List.map_cons, List.append_assoc] at left
  exact ⟨_, _, List.append_ne_nil_of_right_ne_nil _ (List.cons_ne_nil _ _), left⟩

theorem TurnsTo.cleanup?_eq_none (turns : TurnsTo i slot w w') : w'.cleanup? i slot = none := by
  obtain ⟨top, step⟩ := turns
  refine cleanup?_modify_none (step_turn top step).2 fun t => ?_
  rw [Ties.get?_without, if_pos rfl]

/-- An effect that is at work is of an instance that is there. -/
theorem Footed.owner_lt {p : Program H} {k : CleanupSlot} {stack : List (Activity H)}
    (footed : w.Footed) (top : w.stack = .program p (some (.cleanup k)) :: stack) :
    k.owner < w.ties.length := by
  rw [Footed, top] at footed
  obtain ⟨rest, below, rfl⟩ := footed.1.keeps k rfl
  exact footed.2.1.there _ _ rfl

theorem HandsBack.cleanup?_eq {c : Program H} (footed : w.Footed)
    (hands : HandsBack i slot c w w') : w'.cleanup? i slot = some c := by
  obtain ⟨top, step⟩ := hands
  have there : i < w.ties.length := footed.owner_lt top
  rw [cleanup?_modify (step_handBack top step).2, List.getElem?_eq_getElem there, Option.bind_some,
    if_pos rfl, Ties.get?_keeping, if_pos rfl]

/-- What a move does to the cleanup in a slot. -/
inductive Slotted (i slot : Nat) (w w' : World H) : Prop
  | keeps (same : w'.cleanup? i slot = w.cleanup? i slot)
  | fills {c : Program H} (hands : HandsBack i slot c w w')
  | empties (takes : TurnsTo i slot w w' ∨ Detaches i w w') (now : w'.cleanup? i slot = none)
    (runs : ∀ c, w.cleanup? i slot = some c → w'.IsUnderWay c)

theorem slotted_step (step : w.step? = some w') (i slot : Nat) : Slotted i slot w w' := by
  cases handled step with
  | ends top left ties => exact .keeps (cleanup?_congr ties)
  | resumes top left heir ties => exact .keeps (cleanup?_congr ties)
  | calls top left heir called ties => exact .keeps (cleanup?_congr ties)
  | flushes top left here ties => exact .keeps (cleanup?_congr ties)
  | @turns j slot' effect rest stack _ top left ties =>
    by_cases here : j = i ∧ slot' = slot
    · obtain ⟨rfl, rfl⟩ := here
      refine .empties (.inl ⟨top, step⟩) (cleanup?_modify_none ties fun t => ?_) fun c kept => ?_
      · rw [Ties.get?_without, if_pos rfl]
      · rw [kept] at left
        exact ⟨[], _, List.cons_ne_nil _ _, left⟩
    · refine .keeps (cleanup?_modify_keep ties fun same t => ?_)
      rw [Ties.get?_without, if_neg fun eq => here ⟨same, eq⟩]
  | @handsBack k c stack _ top left ties =>
    by_cases here : k = ⟨i, slot⟩
    · exact .fills ⟨here ▸ top, step⟩
    · refine .keeps (cleanup?_modify_keep ties fun same t => ?_)
      rw [Ties.get?_keeping, if_neg fun eq => here ?_]
      rw [← same, ← eq]
  | connects top left ties =>
    refine .keeps (cleanup?_modify_keep ties fun _ _ => ?_)
    rfl
  | @detaches j x next keep stack _ top held here left ties =>
    by_cases own : j = i
    · subst own
      have detaches : Detaches j w w' := ⟨top, held, here, step⟩
      exact .empties (.inr detaches) detaches.cleanup?_eq_none fun c kept =>
        detaches.isUnderWay kept
    · exact .keeps (cleanup?_modify_keep ties fun same => absurd same own)

theorem slotted (next : Next w w') (i slot : Nat) : Slotted i slot w w' := by
  cases next with
  | step step => exact slotted_step step i slot
  | create e =>
    refine .keeps ?_
    rw [cleanup?, cleanup?, ties_create]
    by_cases old : i < w.ties.length
    · rw [List.getElem?_append_left old]
    · have beyond : w.ties.length ≤ i := Nat.le_of_not_lt old
      rw [List.getElem?_append_right beyond, List.getElem?_eq_none beyond]
      cases i - w.ties.length with
      | zero => rfl
      | succ n => rfl
  | drop j => exact .keeps (cleanup?_congr (kept_drop w j).ties)
  | call p rest => exact .keeps rfl

/-! ## Live effects -/

/-- In the moves from `m` to `n` no flush turns to the effect of a slot, and none hands back a
cleanup for it. -/
def Untouched (ws : Nat → World H) (i slot m n : Nat) : Prop :=
  ∀ k, m < k → k < n →
    ¬ TurnsTo i slot (ws k) (ws (k + 1)) ∧ ∀ c, ¬ HandsBack i slot c (ws k) (ws (k + 1))

variable {ws : Nat → World H} {n m : Nat}

/-- In a slot that is not touched, a cleanup stays as long as its element is not detached. -/
theorem Run.cleanup?_eq_some (run : Run ws n) {c : Program H} (untouched : Untouched ws i slot m n)
    (kept : (ws (m + 1)).cleanup? i slot = some c) {k : Nat} (after : m < k) (le : k ≤ n)
    (attached : ∀ l, m < l → l < k → ¬ Detaches i (ws l) (ws (l + 1))) :
    (ws k).cleanup? i slot = some c := by
  induction after with
  | refl => exact kept
  | @step k after ih =>
    have here := ih (Nat.le_of_succ_le le) fun l lower upper =>
      attached l lower (Nat.lt_succ_of_lt upper)
    obtain ⟨no_turn, no_hand⟩ := untouched k after le
    cases slotted (run.next k le) i slot with
    | keeps same => exact same.trans here
    | fills hands => exact absurd hands (no_hand _)
    | empties takes now runs =>
      rcases takes with turns | detaches
      · exact absurd turns no_turn
      · exact absurd detaches (attached k after (Nat.lt_succ_self k))

/-- An empty slot that is not touched stays empty. -/
theorem Run.cleanup?_eq_none (run : Run ws n) (untouched : Untouched ws i slot m n) {k l : Nat}
    (after : m < k) (le : k ≤ l) (within : l ≤ n) (empty : (ws k).cleanup? i slot = none) :
    (ws l).cleanup? i slot = none := by
  induction le with
  | refl => exact empty
  | @step l le ih =>
    have here := ih (Nat.le_of_succ_le within)
    cases slotted (run.next l within) i slot with
    | keeps same => exact same.trans here
    | fills hands => exact absurd hands ((untouched l (Nat.lt_of_lt_of_le after le) within).2 _)
    | empties takes now runs => exact now

/-- The cleanup that was handed back last, in a slot to whose effect no flush has turned since, is
kept, and so has not been run, exactly as long as the element has not been detached. The first time
that it is detached the cleanup is run, and from then on none is kept. -/
theorem Run.kept_iff_attached (run : Run ws n) (lt : m < n) {c : Program H}
    (hands : HandsBack i slot c (ws m) (ws (m + 1))) (untouched : Untouched ws i slot m n) :
    ((∀ k, m < k → k ≤ n → (ws k).cleanup? i slot = some c) ↔
        ∀ k, m < k → k < n → ¬ Detaches i (ws k) (ws (k + 1))) ∧
      ∀ k, m < k → k < n → Detaches i (ws k) (ws (k + 1)) →
        (ws n).cleanup? i slot = none ∧
          ((∀ l, m < l → l < k → ¬ Detaches i (ws l) (ws (l + 1))) →
            (ws (k + 1)).IsUnderWay c) := by
  have kept : (ws (m + 1)).cleanup? i slot = some c :=
    hands.cleanup?_eq (run.reachable (Nat.le_of_lt lt)).footed
  have gone {k : Nat} (after : m < k) (before : k < n)
      (detaches : Detaches i (ws k) (ws (k + 1))) : (ws n).cleanup? i slot = none :=
    run.cleanup?_eq_none untouched (Nat.lt_succ_of_lt after) before (Nat.le_refl n)
      detaches.cleanup?_eq_none
  refine ⟨⟨fun always k after before detaches => ?_, fun attached k after le => ?_⟩,
    fun k after before detaches => ⟨gone after before detaches, fun first => ?_⟩⟩
  · have still := always n lt (Nat.le_refl n)
    rw [gone after before detaches] at still
    cases still
  · exact run.cleanup?_eq_some untouched kept after le fun l lower upper =>
      attached l lower (Nat.lt_of_lt_of_le upper le)
  · exact detaches.isUnderWay
      (run.cleanup?_eq_some untouched kept after (Nat.le_of_lt before) first)

/-- An element with an effect that is run once, and with a cleanup. -/
def subscriber : Element Unit where
  name := "x-sub".toList
  render := .hook (.useEffect .passive (some []) (.done (some .skip))) fun _ =>
    .finish ⟨.ok (.static "subscribed".toList), []⟩

/-- A subscriber is connected, disconnected and connected again. -/
def resubscribed : World Unit :=
  hosting subscriber
    (.request 0 .connect (.drive .untilIdle fun _ => .request 0 .disconnect
      (.request 0 .connect (.drive .untilIdle fun _ => .skip))))

/-- The next step turns to an effect or may hand back a cleanup. -/
def isTouching (w : World H) : Bool :=
  match w.stack with
  | .effects _ (_ :: _) :: _ | .program (.done (some _)) (some _) :: _ => true
  | _ => false

theorem untouched_of_not_isTouching (still : ∀ k < n, m < k → (ws k).isTouching = false) :
    Untouched ws i slot m n := by
  refine fun k after before => ⟨fun turns => ?_, fun c hands => ?_⟩
  · obtain ⟨top, step⟩ := turns
    have touching := still k before after
    rw [isTouching, top] at touching
    cases touching
  · obtain ⟨top, step⟩ := hands
    have touching := still k before after
    rw [isTouching, top] at touching
    cases touching

theorem reachable_resubscribed : Reachable resubscribed := reachable_hosting _ _

theorem busy_resubscribed : ∀ k < 40, (resubscribed.run k).stack ≠ [] := by decide

theorem handsBack_resubscribed :
    HandsBack 0 0 .skip (resubscribed.run 15) (resubscribed.run 16) :=
  ⟨rfl, step?_run (busy_resubscribed 15 (by decide))⟩

theorem untouched_resubscribed : Untouched (resubscribed.run ·) 0 0 15 40 :=
  untouched_of_not_isTouching (by decide)

theorem kept_iff_attached_resubscribed : (resubscribed.run 40).cleanup? 0 0 = none := by
  have detaches : Detaches 0 (resubscribed.run 20) (resubscribed.run 21) :=
    ⟨rfl, rfl, rfl, step?_run (busy_resubscribed 20 (by decide))⟩
  exact (((reachable_resubscribed.runOn busy_resubscribed).kept_iff_attached (by decide)
    handsBack_resubscribed untouched_resubscribed).2 20 (by decide) (by decide) detaches).1

/-- The next step answers an effect hook with dependencies, in a slot of instance `i`. -/
inductive CallsEffect (i slot : Nat) (w : World H) : Prop
  | intro {kind : EffectKind} {deps : List Json} {effect : Program H} {next : Unit → Render H}
    {computed : Keyed Json} {purpose : Purpose H} {stack : List (Activity H)}
    (top : w.stack = .render i (.hook (.useEffect kind (some deps) effect) next) computed slot
      purpose :: stack)

/-- How many renders of instance `i` are over. -/
def rendersOf (w : World H) (i : Nat) : Nat := ((w.instances[i]?).map (·.renders)).getD 0

/-- An element that is connected again with the same dependencies has no live effect, although the
loop is idle and its last render has called the hook. -/
theorem not_live_effect :
    ¬ ∀ (ws : Nat → World Unit) (n m i slot : Nat) (c : Program Unit), Run ws n → m < n →
      HandsBack i slot c (ws m) (ws (m + 1)) → Untouched ws i slot m n →
      (ws n).loopIdle = true → (ws n).isConnected i = true →
      (∃ k < n, CallsEffect i slot (ws k) ∧ (ws n).rendersOf i = (ws k).rendersOf i + 1) →
      (ws n).cleanup? i slot = some c := by
  intro live
  have calls : CallsEffect 0 0 (resubscribed.run 26) := ⟨rfl⟩
  have idle : (resubscribed.run 40).loopIdle = true := by decide
  have connected : (resubscribed.run 40).isConnected 0 = true := by decide
  have kept := live (resubscribed.run ·) 40 15 0 0 .skip
    (reachable_resubscribed.runOn busy_resubscribed) (by decide) handsBack_resubscribed
    untouched_resubscribed idle connected ⟨26, by decide, calls, by decide⟩
  have taken : ((resubscribed.run 40).cleanup? 0 0).isNone = true := by decide
  rw [kept] at taken
  cases taken

end World

end LiveMarkup
