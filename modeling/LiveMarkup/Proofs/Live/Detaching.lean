import LiveMarkup.Proofs.Live.Cleanups

/-!
# Detached elements

That an element is connected is looked at once, when a flush takes its effects. So no flush of a
detached element starts; but one that was at work when the element was detached goes on with the
effects that it has taken, and what they hand back is kept by an element that is not connected. The
cleanups that were handed back before have all been run when the job that detaches the element is
over, if no effect has run inside another run of its slot.
-/

namespace LiveMarkup

variable {H : Type}

namespace World

variable {w w' : World H} {ws : Nat → World H} {i slot n m k r : Nat} {c : Program H}
  {lower below : List (Activity H)}

/-! ## What a call stands on -/

/-- What is being done stands on `lower`. -/
def Above (lower : List (Activity H)) (w : World H) : Prop := lower <:+ w.stack ∧ lower ≠ w.stack

/-- A step works on the activity on top only. -/
theorem exists_tail (step : w.step? = some w') :
    ∃ a stack, w.stack = a :: stack ∧ stack <:+ w'.stack := by
  have under (a : Activity H) (stack : List (Activity H)) : stack <:+ a :: stack :=
    List.suffix_cons a stack
  cases handled step with
  | ends top left ties => exact ⟨_, _, top, left ▸ List.suffix_refl _⟩
  | resumes top left heir ties => exact ⟨_, _, top, left ▸ under _ _⟩
  | calls top left heir called ties => exact ⟨_, _, top, left ▸ (under _ _).trans (under _ _)⟩
  | flushes top left here ties => exact ⟨_, _, top, left ▸ top ▸ (under _ _).trans (under _ _)⟩
  | turns top left ties =>
    exact ⟨_, _, top, left ▸ ((under _ _).trans (under _ _)).trans (List.suffix_append _ _)⟩
  | handsBack top left ties => exact ⟨_, _, top, left ▸ List.suffix_refl _⟩
  | connects top left ties => exact ⟨_, _, top, left ▸ under _ _⟩
  | detaches top held here left ties =>
    exact ⟨_, _, top, left ▸ (under _ _).trans (List.suffix_append _ _)⟩

/-- What is stood on is still there after a move. -/
theorem Above.next (above : Above lower w) (next : Next w w') : lower <:+ w'.stack := by
  obtain ⟨suffix, ne⟩ := above
  cases next with
  | step step =>
    obtain ⟨a, stack, top, tail⟩ := exists_tail step
    rw [top] at suffix ne
    rcases List.suffix_cons_iff.mp suffix with same | suffix
    · exact absurd same ne
    · exact suffix.trans tail
  | create e => exact suffix
  | drop j => exact suffix
  | call p rest =>
    rw [rest] at suffix ne
    exact absurd (List.suffix_nil.mp suffix) ne

/-- A call has come to its end, or everything still stands on what it stands on. -/
theorem Run.above_or_down (run : Run ws n) (le : k ≤ r) (within : r ≤ n)
    (above : Above lower (ws k)) :
    (∀ l, k ≤ l → l ≤ r → Above lower (ws l)) ∨
      ∃ e, k < e ∧ e ≤ r ∧ (ws e).stack = lower ∧ ∀ l, k ≤ l → l < e → Above lower (ws l) := by
  induction le with
  | refl =>
    refine .inl fun l lower upper => ?_
    obtain rfl : l = k := Nat.le_antisymm upper lower
    exact above
  | @step r le ih =>
    rcases ih (Nat.le_of_succ_le within) with still | ⟨e, after, before, down, until_then⟩
    · have suffix := (still r le (Nat.le_refl r)).next (run.next r within)
      by_cases down : lower = (ws (r + 1)).stack
      · exact .inr ⟨r + 1, Nat.lt_succ_of_le le, Nat.le_refl _, down.symm,
          fun l lower upper => still l lower (Nat.le_of_lt_succ upper)⟩
      · refine .inl fun l lower upper => ?_
        rcases Nat.le_succ_iff.mp upper with earlier | rfl
        · exact still l lower earlier
        · exact ⟨suffix, down⟩
    · exact .inr ⟨e, after, Nat.le_succ_of_le before, down, until_then⟩

/-! ## Flushes of effects -/

/-- A flush of effects of instance `i` is at work. -/
def IsFlushing (w : World H) (i : Nat) : Prop := ∃ rest, .effects i rest ∈ w.stack

theorem suffix_of_not_mem {a : Activity H} {new stack : List (Activity H)}
    (suffix : a :: below <:+ new ++ stack) (old : a ∉ new) : a :: below <:+ stack := by
  induction new with
  | nil => exact suffix
  | cons b new ih =>
    rcases List.suffix_cons_iff.mp suffix with same | suffix
    · cases same
      exact absurd List.mem_cons_self old
    · exact ih suffix fun mem => old (List.mem_cons_of_mem _ mem)

theorem not_isEffects_programs (ps : List (Program H)) :
    ∀ b ∈ ps.map (Activity.program · none), b.isEffects = false := by
  intro b mem
  obtain ⟨p, -, rfl⟩ := List.mem_map.mp mem
  rfl

section Flush

variable {rest : List (Nat × Program H)}

/-- A flush of effects that is at work was at work before a move that has put no flush on the
stack. -/
theorem exists_flush_under {a : Activity H} {stack : List (Activity H)} (new : List (Activity H))
    (top : w.stack = a :: stack) (left : w'.stack = new ++ stack)
    (no_effects : ∀ b ∈ new, b.isEffects = false)
    (standing : .effects i rest :: below <:+ w'.stack) :
    ∃ taken, rest <:+ taken ∧ .effects i taken :: below <:+ w.stack := by
  rw [left] at standing
  have under := suffix_of_not_mem standing fun mem =>
    Activity.ne_effects (no_effects _ mem) i rest rfl
  exact ⟨rest, List.suffix_refl rest, top ▸ under.trans (List.suffix_cons _ _)⟩

/-- A flush of effects that is at work behind a move was at work before it, with no less to do,
unless the move has taken the effects of a connected element. -/
theorem exists_flush_before (next : Next w w')
    (quiet : ∀ q stack, w.stack = .flush q :: stack → w.isConnected i = false)
    (standing : .effects i rest :: below <:+ w'.stack) :
    ∃ taken, rest <:+ taken ∧ .effects i taken :: below <:+ w.stack := by
  cases next with
  | create e => exact ⟨rest, List.suffix_refl rest, standing⟩
  | drop j => exact ⟨rest, List.suffix_refl rest, standing⟩
  | call p empty =>
    rcases List.suffix_cons_iff.mp standing with same | suffix
    · cases same
    · exact ⟨rest, List.suffix_refl rest, suffix⟩
  | step step =>
    cases handled step with
    | ends top left ties => exact exists_flush_under [] top left (List.forall_mem_nil _) standing
    | resumes top left heir ties =>
      exact exists_flush_under [_] top left (List.forall_mem_singleton.mpr heir.effects) standing
    | calls top left heir called ties =>
      exact exists_flush_under [_, _] top left
        (List.forall_mem_cons.mpr ⟨called.effects, List.forall_mem_singleton.mpr heir.effects⟩)
        standing
    | flushes top left here ties =>
      rw [left] at standing
      rcases List.suffix_cons_iff.mp standing with same | suffix
      · cases same
        rw [quiet _ _ top] at here
        cases here
      · exact ⟨rest, List.suffix_refl rest, suffix⟩
    | @turns j slot effect rest' stack _ top left ties =>
      rw [left, List.append_cons] at standing
      have under : .effects i rest :: below <:+ .effects j rest' :: stack := by
        refine suffix_of_not_mem standing fun mem => ?_
        rcases List.mem_append.mp mem with mem | mem
        · exact Activity.ne_effects (not_isEffects_programs _ _ mem) i rest rfl
        · cases List.mem_singleton.mp mem
      rw [top]
      rcases List.suffix_cons_iff.mp under with same | suffix
      · cases same
        exact ⟨_, List.suffix_cons _ _, List.suffix_refl _⟩
      · exact ⟨rest, List.suffix_refl rest, suffix.trans (List.suffix_cons _ _)⟩
    | handsBack top left ties =>
      exact exists_flush_under [] top left (List.forall_mem_nil _) standing
    | connects top left ties =>
      exact exists_flush_under [_] top left (List.forall_mem_singleton.mpr rfl) standing
    | detaches top held here left ties =>
      rw [List.append_cons] at left
      refine exists_flush_under _ top left (fun b mem => ?_) standing
      rcases List.mem_append.mp mem with mem | mem
      · exact not_isEffects_programs _ b mem
      · rw [List.mem_singleton.mp mem]
        rfl

end Flush

/-! ## Slots of effects that are at work -/

/-- The slots of the effects on a stack. -/
def keepers (stack : List (Activity H)) : List CleanupSlot := stack.filterMap Activity.keep?

section Keepers

variable {key : CleanupSlot} {a b : Activity H} {stack : List (Activity H)}

theorem mem_keepers_cons (mem : key ∈ keepers (a :: stack)) :
    a.keep? = some key ∨ key ∈ keepers stack := by
  obtain ⟨b, mem, keep⟩ := List.mem_filterMap.mp mem
  rcases List.mem_cons.mp mem with rfl | mem
  · exact .inl keep
  · exact .inr (List.mem_filterMap.mpr ⟨b, mem, keep⟩)

theorem mem_keepers_of_cons (mem : key ∈ keepers (a :: stack)) (keep : a.keep? = none) :
    key ∈ keepers stack := by
  rcases mem_keepers_cons mem with same | mem
  · rw [keep] at same
    cases same
  · exact mem

theorem mem_keepers_heir (heir : a.Heir b) (mem : key ∈ keepers (b :: stack)) :
    key ∈ keepers (a :: stack) := by
  rw [keepers, List.filterMap_cons] at mem ⊢
  rwa [heir.keep] at mem

theorem mem_keepers_programs (ps : List (Program H))
    (mem : key ∈ keepers (ps.map (Activity.program · none) ++ stack)) : key ∈ keepers stack := by
  induction ps with
  | nil => exact mem
  | cons p ps ih => exact ih (mem_keepers_of_cons mem rfl)

theorem mem_keepers_tail (mem : key ∈ keepers stack) : key ∈ keepers (a :: stack) := by
  obtain ⟨b, mem, keep⟩ := List.mem_filterMap.mp mem
  exact List.mem_filterMap.mpr ⟨b, List.mem_cons_of_mem _ mem, keep⟩

/-- An effect comes onto the stack only when a flush turns to it. -/
theorem mem_keepers_next (next : Next w w') (mem : key ∈ keepers w'.stack) :
    key ∈ keepers w.stack ∨ TurnsTo key.owner key.slot w w' := by
  cases next with
  | create e => exact .inl mem
  | drop j => exact .inl mem
  | call p rest => exact .inl (mem_keepers_of_cons mem rfl)
  | step step =>
    cases handled step with
    | ends top left ties =>
      rw [left] at mem
      exact .inl (top ▸ mem_keepers_tail mem)
    | resumes top left heir ties =>
      rw [left] at mem
      exact .inl (top ▸ mem_keepers_heir heir mem)
    | calls top left heir called ties =>
      rw [left] at mem
      exact .inl (top ▸ mem_keepers_heir heir (mem_keepers_of_cons mem called.keep))
    | flushes top left here ties =>
      rw [left] at mem
      exact .inl (mem_keepers_of_cons mem rfl)
    | turns top left ties =>
      rw [left] at mem
      rcases mem_keepers_cons (mem_keepers_programs _ mem) with keep | mem
      · cases keep
        exact .inr ⟨top, step⟩
      · exact .inl (top ▸ mem_keepers_tail (mem_keepers_of_cons mem rfl))
    | handsBack top left ties =>
      rw [left] at mem
      exact .inl (top ▸ mem_keepers_tail mem)
    | connects top left ties =>
      rw [left] at mem
      exact .inl (top ▸ mem_keepers_heir (.of_plain rfl rfl rfl) mem)
    | detaches top held here left ties =>
      rw [left] at mem
      have goes_on := mem_keepers_programs _ mem
      exact .inl (top ▸ mem_keepers_heir (.of_plain rfl rfl rfl) goes_on)

end Keepers

/-- No effect of instance `i` runs inside a run of an effect of the same slot. -/
def Unnested (w : World H) (i : Nat) : Prop := ((keepers w.stack).filter (·.owner == i)).Nodup

instance (w : World H) (i : Nat) : Decidable (w.Unnested i) :=
  inferInstanceAs (Decidable (List.Nodup _))

/-- While an effect is at work its slot is empty. -/
def Vacant (w : World H) (i : Nat) : Prop :=
  ∀ slot, ⟨i, slot⟩ ∈ keepers w.stack → w.cleanup? i slot = none

theorem HandsBack.mem_keepers (hands : HandsBack i slot c w w') : ⟨i, slot⟩ ∈ keepers w.stack := by
  obtain ⟨top, step⟩ := hands
  rw [top]
  exact List.mem_filterMap.mpr ⟨_, List.mem_cons_self, rfl⟩

/-- An effect that hands back a cleanup is over. -/
theorem HandsBack.not_mem_keepers (unnested : w.Unnested i) (hands : HandsBack i slot c w w') :
    ⟨i, slot⟩ ∉ keepers w'.stack := by
  obtain @⟨stack, top, step⟩ := hands
  rw [(step_handBack top step).1]
  have own : ((⟨i, slot⟩ : CleanupSlot).owner == i) = true := beq_self_eq_true i
  have first : (keepers w.stack).filter (·.owner == i) =
      ⟨i, slot⟩ :: (keepers stack).filter (·.owner == i) := by
    rw [top]
    exact List.filter_cons_of_pos own
  rw [Unnested, first, List.nodup_cons] at unnested
  exact fun mem => unnested.1 (List.mem_filter.mpr ⟨mem, own⟩)

theorem vacant_next (unnested : w.Unnested i) (vacant : w.Vacant i) (next : Next w w') :
    w'.Vacant i := by
  intro slot mem
  rcases mem_keepers_next next mem with before | turns
  · cases slotted next i slot with
    | keeps same => exact same.trans (vacant slot before)
    | fills hands => exact absurd mem (hands.not_mem_keepers unnested)
    | empties takes now runs => exact now
  · exact turns.cleanup?_eq_none

/-- In a run that starts with nothing on the stack the slot of an effect that is at work is empty,
if no effect runs inside another run of its slot. -/
theorem Run.vacant (run : Run ws n) (empty : (ws 0).stack = []) (within : k ≤ n)
    (unnested : ∀ l < k, (ws l).Unnested i) : (ws k).Vacant i := by
  induction k with
  | zero =>
    intro slot mem
    rw [empty] at mem
    cases mem
  | succ k ih =>
    exact vacant_next (unnested k (Nat.lt_succ_self k))
      (ih (Nat.le_of_succ_le within) fun l lt => unnested l (Nat.lt_succ_of_lt lt))
      (run.next k within)

/-! ## What becomes of cleanups -/

/-- A cleanup that is kept is still kept later on, or has been taken to be run. -/
theorem Run.kept_or_taken (run : Run ws n) (vacant : ∀ l < r, (ws l).Vacant i) (le : k ≤ r)
    (within : r ≤ n) (kept : (ws k).cleanup? i slot = some c) :
    (ws r).cleanup? i slot = some c ∨
      ∃ l, k ≤ l ∧ l < r ∧ (ws l).cleanup? i slot = some c ∧ (ws (l + 1)).IsUnderWay c := by
  induction le with
  | refl => exact .inl kept
  | @step r le ih =>
    rcases ih (fun l lt => vacant l (Nat.lt_succ_of_lt lt)) (Nat.le_of_succ_le within) with
      still | ⟨l, after, before, had, taken⟩
    · cases slotted (run.next r within) i slot with
      | keeps same => exact .inl (same.trans still)
      | fills hands =>
        rw [vacant r (Nat.lt_succ_self r) slot hands.mem_keepers] at still
        cases still
      | empties takes now runs => exact .inr ⟨r, le, Nat.lt_succ_self r, still, runs c still⟩
    · exact .inr ⟨l, after, Nat.lt_succ_of_lt before, had, taken⟩

/-- Between the moves `m` and `r` the cleanup `c` of a slot has been taken and run to its end. -/
inductive Undone (ws : Nat → World H) (i slot : Nat) (c : Program H) (m r : Nat) : Prop
  | intro {k e : Nat} {above below : List (Activity H)} (after : m < k) (later : k < e)
    (before : e ≤ r) (kept : (ws k).cleanup? i slot = some c)
    (taken : (ws (k + 1)).stack = above ++ .program c none :: below)
    (running : ∀ l, k < l → l < e → Above below (ws l)) (down : (ws e).stack = below)

/-- When at most one activity is left on the stack, what was taken to be run has been run. -/
theorem Run.undone (run : Run ws n) (after : m < k) (before : k < r) (within : r ≤ n)
    (few : (ws r).stack.length ≤ 1) (kept : (ws k).cleanup? i slot = some c)
    (taken : (ws (k + 1)).IsUnderWay c) : Undone ws i slot c m r := by
  obtain ⟨above, below, some_below, stack⟩ := taken
  have standing : Above below (ws (k + 1)) := by
    refine ⟨stack ▸ (List.suffix_cons _ _).trans (List.suffix_append _ _), fun same => ?_⟩
    have lengths := congrArg List.length (same.trans stack)
    rw [List.length_append, List.length_cons] at lengths
    omega
  rcases run.above_or_down before within standing with still | ⟨e, later, le, down, until_then⟩
  · obtain ⟨suffix, ne⟩ := still r before (Nat.le_refl r)
    have some_left := List.length_pos_iff.mpr some_below
    exact absurd (suffix.eq_of_length_le (Nat.le_trans few some_left)) ne
  · exact ⟨after, Nat.lt_of_succ_lt later, le, kept, stack,
      fun l lower upper => until_then l lower upper, down⟩

/-! ## Detached elements -/

/-- At `k` an effect starts: the flush that stands on `below` has turned to it, and the cleanup of
its slot, if there was one, is over. -/
inductive StartsEffect (ws : Nat → World H) (i slot : Nat) (effect : Program H)
    (below : List (Activity H)) (k : Nat) : Prop
  | intro {j : Nat} {rest : List (Nat × Program H)} (before : j < k)
    (turned : (ws j).stack = .effects i ((slot, effect) :: rest) :: below)
    (cleaning : ∀ l, j < l → l < k →
      Above (.program effect (some (.cleanup ⟨i, slot⟩)) :: .effects i rest :: below) (ws l))
    (starts : (ws k).stack =
      .program effect (some (.cleanup ⟨i, slot⟩)) :: .effects i rest :: below)

/-- A flush that stands on `below` is at work, and has taken the effect of a slot. -/
def HasTaken (w : World H) (i slot : Nat) (effect : Program H) (below : List (Activity H)) : Prop :=
  ∃ waiting, .effects i waiting :: below <:+ w.stack ∧
    ((slot, effect) ∈ waiting ∨
      .program effect (some (.cleanup ⟨i, slot⟩)) :: .effects i waiting :: below <:+ w.stack)

/-- In a run that starts with nothing on the stack instance `i` is detached at `a`, and it is not
connected again before `n`. -/
structure Detachment (ws : Nat → World H) (n a i : Nat) : Prop where
  run : Run ws n
  rest : (ws 0).stack = []
  within : a < n
  detaches : Detaches i (ws a) (ws (a + 1))
  away : ∀ k, a < k → k ≤ n → (ws k).isConnected i = false

variable {a : Nat}

/-- A flush that is at work on a detached element was at work when it was detached. -/
theorem Detachment.exists_flush (d : Detachment ws n a i) {rest : List (Nat × Program H)}
    (after : a ≤ k) (within : k ≤ n) (standing : .effects i rest :: below <:+ (ws k).stack) :
    ∃ taken, rest <:+ taken ∧ .effects i taken :: below <:+ (ws a).stack := by
  induction after generalizing rest with
  | refl => exact ⟨rest, List.suffix_refl rest, standing⟩
  | @step k after ih =>
    have quiet : ∀ q stack, (ws k).stack = .flush q :: stack → (ws k).isConnected i = false := by
      intro q stack top
      rcases Nat.eq_or_lt_of_le after with rfl | later
      · obtain ⟨detaching, held, here, step⟩ := d.detaches
        rw [detaching] at top
        cases top
      · exact d.away k later (Nat.le_of_succ_le within)
    obtain ⟨taken, less, before⟩ := exists_flush_before (d.run.next k within) quiet standing
    obtain ⟨taken', less', at_first⟩ := ih (Nat.le_of_succ_le within) before
    exact ⟨taken', less.trans less', at_first⟩

theorem Detachment.hasTaken (d : Detachment ws n a i) {effect : Program H} (after : a < k)
    (within : k ≤ n) (starts : StartsEffect ws i slot effect below k) :
    (ws a).HasTaken i slot effect below := by
  obtain @⟨j, rest, before, turned, cleaning, starts⟩ := starts
  rcases Nat.lt_trichotomy j a with earlier | rfl | later
  · -- the element is detached by the cleanup of the slot, or by what that calls
    have suffix := (cleaning a earlier after).1
    exact ⟨rest, (List.suffix_cons _ _).trans suffix, .inr suffix⟩
  · obtain ⟨detaching, held, here, step⟩ := d.detaches
    rw [detaching] at turned
    cases turned
  · have turning : .effects i ((slot, effect) :: rest) :: below <:+ (ws j).stack :=
      turned ▸ List.suffix_refl _
    obtain ⟨waiting, less, standing⟩ := d.exists_flush (Nat.le_of_lt later)
      (Nat.le_trans (Nat.le_of_lt before) within) turning
    exact ⟨waiting, standing, .inl (less.mem List.mem_cons_self)⟩

theorem Detachment.not_handsBack (d : Detachment ws n a i) :
    ¬HandsBack i slot c (ws a) (ws (a + 1)) := by
  rintro ⟨top, -⟩
  obtain ⟨detaching, held, here, step⟩ := d.detaches
  rw [detaching] at top
  cases top

theorem Detachment.undone (d : Detachment ws n a i) (unnested : ∀ k < a, (ws k).Unnested i)
    (after : a < r) (within : r ≤ n) (few : (ws r).stack.length ≤ 1) (before : m < a)
    (hands : HandsBack i slot c (ws m) (ws (m + 1))) : Undone ws i slot c m r := by
  have run := d.run
  have footed := (run.reachable (Nat.le_of_lt (Nat.lt_trans before d.within))).footed
  have vacant : ∀ l < a, (ws l).Vacant i := fun l lt =>
    run.vacant d.rest (Nat.le_of_lt (Nat.lt_trans lt d.within)) fun l' lt' =>
      unnested l' (Nat.lt_trans lt' lt)
  rcases run.kept_or_taken vacant before (Nat.le_of_lt d.within) (hands.cleanup?_eq footed) with
    still | ⟨l, after_m, before_a, had, taken⟩
  · exact run.undone before after within few still (d.detaches.isUnderWay still)
  · exact run.undone after_m (Nat.lt_trans before_a after) within few had taken

theorem Detachment.isFlushing (d : Detachment ws n a i) (after : a < m) (within : m < n)
    (hands : HandsBack i slot c (ws m) (ws (m + 1))) : (ws a).IsFlushing i := by
  have footed := (d.run.reachable (Nat.le_of_lt within)).footed
  obtain ⟨top, -⟩ := hands
  rw [Footed, top] at footed
  obtain ⟨rest, below, rfl⟩ := footed.1.keeps _ rfl
  obtain ⟨taken, -, standing⟩ := d.exists_flush (Nat.le_of_lt after) (Nat.le_of_lt within)
    (top ▸ List.suffix_cons _ _)
  exact ⟨taken, standing.mem List.mem_cons_self⟩

/-- As long as a detached element is not connected again, only effects start that a flush had taken
which was at work when the element was detached. When the job that detaches it is over, every
cleanup that its effects had handed back has been run, if none of them has run inside another run of
its slot. Others are handed back only if such a flush was at work. -/
theorem Detachment.quiet (d : Detachment ws n a i) :
    (∀ k, a < k → k ≤ n → ∀ slot effect below, StartsEffect ws i slot effect below k →
        (ws a).HasTaken i slot effect below) ∧
      ((∀ k < a, (ws k).Unnested i) → ∀ r, a < r → r ≤ n → (ws r).stack.length ≤ 1 →
        ∀ m ≤ a, ∀ slot c, HandsBack i slot c (ws m) (ws (m + 1)) → Undone ws i slot c m r) ∧
      ∀ m, a < m → m < n → ∀ slot c, HandsBack i slot c (ws m) (ws (m + 1)) →
        (ws a).IsFlushing i := by
  refine ⟨fun _ after within _ _ _ starts => d.hasTaken after within starts,
    fun unnested r after within few m upTo slot c hands => ?_,
    fun _ after within _ _ hands => d.isFlushing after within hands⟩
  rcases Nat.eq_or_lt_of_le upTo with rfl | before
  · exact absurd hands d.not_handsBack
  · exact d.undone unnested after within few before hands

/-- The worlds of a call that the host makes, from the one in which it is made. -/
def calling (w : World H) (p : Program H) : Nat → World H
  | 0 => w
  | k + 1 => (w.start p none).run k

theorem Reachable.runCall (reached : Reachable w) (empty : w.stack = []) {p : Program H}
    (busy : ∀ k < n, ((w.start p none).run k).stack ≠ []) : Run (calling w p) (n + 1) where
  start := reached
  next k lt := by
    cases k with
    | zero => exact .call p empty
    | succ k => exact .step (step?_run (busy k (Nat.lt_of_succ_lt_succ lt)))

/-- A host that has made an element. -/
def housing (e : Element Unit) : World Unit := (fresh {} [] ()).create e

theorem reachable_housing (e : Element Unit) : Reachable (housing e) :=
  .next (.fresh {} [] ()) (.create _ e)

/-- An element with two effects, of which the first disconnects it and has a cleanup. -/
def quitter : Element Unit where
  name := "x-quitter".toList
  render :=
    .hook (.useEffect .passive (some []) (.request 0 .disconnect (.done (some .skip)))) fun _ =>
      .hook (.useEffect .passive (some []) .skip) fun _ => .finish ⟨.ok (.static "gone".toList), []⟩

/-- The host connects an element and drives the loop. -/
def quitting : Nat → World Unit :=
  calling (housing quitter) (.request 0 .connect (.drive .untilIdle fun _ => .skip))

theorem busy_quitting : ∀ k < 22, (quitting (k + 1)).stack ≠ [] := by decide

theorem detachment_quitting : Detachment quitting 23 17 0 where
  run := (reachable_housing _).runCall rfl busy_quitting
  rest := rfl
  within := by decide
  detaches := ⟨rfl, rfl, rfl, step?_run (busy_quitting 16 (by decide))⟩
  away k after le := by
    have gone : ∀ k < 24, 17 < k → (quitting k).isConnected 0 = false := by decide
    exact gone k (Nat.lt_succ_of_le le) after

theorem unnested_quitting : ∀ k < 17, (quitting k).Unnested 0 := by decide

theorem exists_startsEffect_quitting : ∃ below, StartsEffect quitting 0 1 .skip below 20 :=
  ⟨_, Nat.lt_succ_self 19, rfl,
    fun _ after before => absurd before (Nat.not_lt_of_le after), rfl⟩

/-- The host disconnects a subscriber after it has been run. -/
def unsubscribed : Nat → World Unit :=
  calling (housing subscriber)
    (.request 0 .connect (.drive .untilIdle fun _ => .ask 0 .disconnect))

theorem busy_unsubscribed : ∀ k < 22, (unsubscribed (k + 1)).stack ≠ [] := by decide

theorem detachment_unsubscribed : Detachment unsubscribed 23 21 0 where
  run := (reachable_housing _).runCall rfl busy_unsubscribed
  rest := rfl
  within := by decide
  detaches := ⟨rfl, rfl, rfl, step?_run (busy_unsubscribed 20 (by decide))⟩
  away k after le := by
    have gone : ∀ k < 24, 21 < k → (unsubscribed k).isConnected 0 = false := by decide
    exact gone k (Nat.lt_succ_of_le le) after

theorem quiet_unsubscribed :
    (∃ below, (quitting 17).HasTaken 0 1 .skip below) ∧ Undone unsubscribed 0 0 .skip 16 23 ∧
      (quitting 17).IsFlushing 0 := by
  obtain ⟨taken, -, flushing⟩ := detachment_quitting.quiet
  obtain ⟨-, undone, -⟩ := detachment_unsubscribed.quiet
  refine ⟨?_, ?_, ?_⟩
  · obtain ⟨below, starts⟩ := exists_startsEffect_quitting
    exact ⟨below, taken 20 (by decide) (by decide) _ _ _ starts⟩
  · have unnested : ∀ k < 21, (unsubscribed k).Unnested 0 := by decide
    exact undone unnested 23 (by decide) (by decide) (by decide) 16 (by decide) 0 .skip
      ⟨rfl, step?_run (busy_unsubscribed 15 (by decide))⟩
  · exact flushing 18 (by decide) (by decide) 0 .skip
      ⟨rfl, step?_run (busy_quitting 17 (by decide))⟩

/-- An element with an effect that drives the loop when it is run for the first time, so that it is
run again meanwhile. -/
def renewer : Element Unit where
  name := "x-renewer".toList
  stateFields := [("n".toList, .int 0)]
  render :=
    .hook (.useEffect .passive none (.getField 0 "n".toList fun
      | .int 0 => .setField 0 "n".toList (.int 1) (.drive .untilIdle fun _ => .done (some .skip))
      | _ => .done (some (.peek fun _ => .skip)))) fun _ =>
        .finish ⟨.ok (.static "renewed".toList), []⟩

/-- The host disconnects such an element after it has been run. -/
def renewing : Nat → World Unit :=
  calling (housing renewer)
    (.request 0 .connect (.drive .untilIdle fun _ => .ask 0 .disconnect))

theorem busy_renewing : ∀ k < 45, (renewing (k + 1)).stack ≠ [] := by decide

theorem detachment_renewing : Detachment renewing 46 43 0 where
  run := (reachable_housing _).runCall rfl busy_renewing
  rest := rfl
  within := by decide
  detaches := ⟨rfl, rfl, rfl, step?_run (busy_renewing 42 (by decide))⟩
  away k after le := by
    have gone : ∀ k < 47, 43 < k → (renewing k).isConnected 0 = false := by decide
    exact gone k (Nat.lt_succ_of_le le) after

/-- What has never been on the stack has not been undone. -/
theorem not_undone (isIt : Activity H → Bool) (hit : isIt (.program c none) = true)
    (missing : ∀ k < r, m < k → (ws (k + 1)).stack.any isIt = false) :
    ¬ Undone ws i slot c m r := by
  rintro @⟨k, e, above, below, after, later, before, kept, taken, running, down⟩
  have absent := missing k (Nat.lt_of_lt_of_le later before) after
  rw [taken, List.any_append, List.any_cons, hit, Bool.true_or, Bool.or_true] at absent
  cases absent

/-- The program of a cleanup that is run, and not of an effect. -/
def isBare : Activity H → Bool
  | .program _ none => true
  | _ => false

/-- A program that is run with nothing to keep and starts by looking at the host. -/
def isBarePeek : Activity H → Bool
  | .program (.peek _) none => true
  | _ => false

/-- After an element has been detached an effect of it may start, a cleanup that is handed back then
may never be run, and one that is replaced inside another run of its slot may not be run either. -/
theorem not_quiet :
    (¬ ∀ (ws : Nat → World Unit) (n a i : Nat), Detachment ws n a i →
      (∀ k < a, (ws k).Unnested i) →
      ∀ k, a < k → k ≤ n → ∀ slot effect below, ¬ StartsEffect ws i slot effect below k) ∧
    (¬ ∀ (ws : Nat → World Unit) (n a i : Nat), Detachment ws n a i →
      (∀ k < a, (ws k).Unnested i) →
      ∀ r, a < r → r ≤ n → (ws r).stack.length ≤ 1 → ∀ m < r, ∀ slot c,
        HandsBack i slot c (ws m) (ws (m + 1)) → Undone ws i slot c m r) ∧
    ¬ ∀ (ws : Nat → World Unit) (n a i : Nat), Detachment ws n a i → ¬ (ws a).IsFlushing i →
      ∀ r, a < r → r ≤ n → (ws r).stack.length ≤ 1 → ∀ m < r, ∀ slot c,
        HandsBack i slot c (ws m) (ws (m + 1)) → Undone ws i slot c m r := by
  refine ⟨fun quiet => ?_, fun undone => ?_, fun undone => ?_⟩
  · obtain ⟨below, starts⟩ := exists_startsEffect_quitting
    exact quiet _ _ _ _ detachment_quitting unnested_quitting 20 (by decide) (by decide) _ _ _
      starts
  · have hands : HandsBack 0 0 .skip (quitting 18) (quitting 19) :=
      ⟨rfl, step?_run (busy_quitting 17 (by decide))⟩
    refine not_undone isBare rfl ?_ (undone _ _ _ _ detachment_quitting unnested_quitting 23
      (by decide) (by decide) (by decide) 18 (by decide) 0 .skip hands)
    decide
  · have hands : HandsBack 0 0 (.peek fun _ => .skip) (renewing 33) (renewing 34) :=
      ⟨rfl, step?_run (busy_renewing 32 (by decide))⟩
    have idle : ¬ (renewing 43).IsFlushing 0 := by
      rintro ⟨rest, mem⟩
      cases List.mem_singleton.mp mem
    refine not_undone isBarePeek rfl ?_ (undone _ _ _ _ detachment_renewing idle 46 (by decide)
      (by decide) (by decide) 33 (by decide) 0 _ hands)
    decide

end World

end LiveMarkup
