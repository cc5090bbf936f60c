import LiveMarkup.Proofs.Live.Detaching

/-!
# Programs for the values of slots

The first value of a slot, and what a setter or a dispatch function makes of it, come from programs
that stand on the stack like any other, over the hook that waits for the value or over the program
that has called. Anything can be done before such a program ends. `Worked` says once what a step
does to those for one slot, and `StandsFor.next` that one of them stands where it has begun until it
is on top and the step ends it.
-/

namespace LiveMarkup

variable {H : Type}

namespace Keep

/-- The first value of slot `k` of element `i`. -/
def isFirst (i k : Nat) : Keep → Bool
  | .first j l _ => j == i && l == k
  | .cleanup _ | .change _ _ _ => false

/-- A value in the place of another one in slot `k` of element `i`. -/
def isChange (i k : Nat) : Keep → Bool
  | .change j l _ => j == i && l == k
  | .cleanup _ | .first _ _ _ => false

/-- A value for slot `k` of element `i`. -/
def isFor (i k : Nat) (keep : Keep) : Bool := keep.isFirst i k || keep.isChange i k

end Keep

/-! ## What is kept on a stack -/

namespace Activity

variable {i k : Nat} {a b : Activity H} {stack : List (Activity H)} {keep : Keep}

/-- The values for slot `k` of element `i` for which programs are at work, innermost first. -/
def keptFor (i k : Nat) (stack : List (Activity H)) : List Keep :=
  stack.filterMap fun a => a.kept?.filter (Keep.isFor i k)

theorem keptFor_append (above below : List (Activity H)) :
    keptFor i k (above ++ below) = keptFor i k above ++ keptFor i k below :=
  List.filterMap_append

theorem keptFor_cons_of_not (other : ∀ keep ∈ a.kept?, keep.isFor i k = false) :
    keptFor i k (a :: stack) = keptFor i k stack := by
  refine List.filterMap_cons_none ?_
  cases kept : a.kept? with
  | none => rfl
  | some keep => simp [Option.filter, other keep kept]

theorem keptFor_cons_of_kept (kept : a.kept? = some keep) (isFor : keep.isFor i k = true) :
    keptFor i k (a :: stack) = keep :: keptFor i k stack :=
  List.filterMap_cons_some (by simp [kept, Option.filter, isFor])

theorem keptFor_heir (heir : a.Heir b) : keptFor i k (b :: stack) = keptFor i k (a :: stack) := by
  simp only [keptFor, List.filterMap_cons, heir.kept]

theorem keptFor_programs (ps : List (Program H)) :
    keptFor i k (ps.map (Activity.program · none) ++ stack) = keptFor i k stack := by
  induction ps with
  | nil => rfl
  | cons p ps ih => exact ih

end Activity

open Activity

namespace World

variable {w w' : World H} {ws : Nat → World H} {i k b e m : Nat} {keep : Keep}
  {below : List (Activity H)}

/-- What a move does to the programs that are at work for slot `k` of element `i`. -/
inductive Worked (i k : Nat) (w w' : World H) : Prop
  | keeps (same : keptFor i k w'.stack = keptFor i k w.stack)
  | begins {keep : Keep} {p : Program H} {b : Activity H} {stack : List (Activity H)}
    (begins : w.Begins keep p b) (isFor : keep.isFor i k = true) (step : w.step? = some w')
    (left : w'.stack = .program p (some keep) :: b :: stack)
    (kept : keptFor i k w'.stack = keep :: keptFor i k w.stack)
  | ends {keep : Keep} {a : Activity H} (kept : a.kept? = some keep)
    (isFor : keep.isFor i k = true) (top : w.stack = a :: w'.stack)

/-- An activity is over, whatever it has kept. -/
theorem worked_of_popped {a : Activity H} {stack : List (Activity H)} (top : w.stack = a :: stack)
    (left : w'.stack = stack) : Worked i k w w' := by
  by_cases isFor : ∃ keep ∈ a.kept?, keep.isFor i k = true
  · obtain ⟨keep, kept, isFor⟩ := isFor
    exact .ends kept isFor (left ▸ top)
  · refine .keeps ?_
    rw [top, left, keptFor_cons_of_not fun keep kept => ?_]
    exact Bool.eq_false_iff.mpr fun holds => isFor ⟨keep, kept, holds⟩

theorem worked_step (step : w.step? = some w') (i k : Nat) : Worked i k w w' := by
  cases handled step with
  | ends top left ties => exact worked_of_popped top left
  | resumes top left heir ties => exact .keeps (by rw [top, left, keptFor_heir heir])
  | @calls a b c stack _ top left heir called ties begins =>
    by_cases isFor : ∃ keep ∈ c.kept?, keep.isFor i k = true
    · obtain ⟨keep, kept, isFor⟩ := isFor
      obtain ⟨p, rfl, begun⟩ := begins keep kept
      refine .begins begun isFor step left ?_
      rw [left, top, keptFor_cons_of_kept kept isFor, keptFor_heir heir]
    · refine .keeps ?_
      rw [left, top, keptFor_cons_of_not fun keep kept => ?_, keptFor_heir heir]
      exact Bool.eq_false_iff.mpr fun holds => isFor ⟨keep, kept, holds⟩
  | flushes top left here ties => exact .keeps (by rw [left]; rfl)
  | turns top left ties =>
    refine .keeps ?_
    rw [left, top, keptFor_programs]
    rfl
  | handsBack top left ties => exact worked_of_popped top left
  | connects top left ties =>
    refine .keeps ?_
    rw [left, top]
    rfl
  | detaches top held here left ties =>
    refine .keeps ?_
    rw [left, top, keptFor_programs]
    rfl

theorem worked (next : Next w w') (i k : Nat) : Worked i k w w' := by
  cases next with
  | step step => exact worked_step step i k
  | create e => exact .keeps rfl
  | drop j => exact .keeps rfl
  | call p rest => exact .keeps rfl

/-! ## Where programs stand -/

/-- A program for a value stands on `below`. -/
def StandsFor (keep : Keep) (below : List (Activity H)) (w : World H) : Prop :=
  ∃ above a, w.stack = above ++ a :: below ∧ a.kept? = some keep

/-- A program for a value stands where it did, or it was on top and is over. -/
theorem StandsFor.next (stands : StandsFor keep below w) (next : Next w w') :
    StandsFor keep below w' ∨ ∃ a, w.stack = a :: below ∧ w'.stack = below := by
  obtain ⟨above, a, stack, kept⟩ := stands
  cases next with
  | create e => exact .inl ⟨above, a, stack, kept⟩
  | drop j => exact .inl ⟨above, a, stack, kept⟩
  | call p rest => exact absurd (stack.symm.trans rest) (by simp)
  | step step =>
    cases above with
    | cons b above =>
      rw [List.cons_append] at stack
      obtain ⟨t, rest, top, tail⟩ := exists_tail step
      obtain ⟨rfl, rfl⟩ := List.cons.inj (stack.symm.trans top)
      obtain ⟨new, left⟩ := tail
      exact .inl ⟨new ++ above, a, by rw [← left, List.append_assoc], kept⟩
    | nil =>
      have same {t : Activity H} {rest : List (Activity H)} (top : w.stack = t :: rest) :
          a = t ∧ below = rest := List.cons.inj (stack.symm.trans top)
      cases handled step with
      | ends top left ties =>
        obtain ⟨rfl, rfl⟩ := same top
        exact .inr ⟨a, stack, left⟩
      | @resumes _ b _ _ top left heir ties =>
        obtain ⟨rfl, rfl⟩ := same top
        exact .inl ⟨[], b, left, heir.kept.trans kept⟩
      | @calls _ b c _ _ top left heir called ties begins =>
        obtain ⟨rfl, rfl⟩ := same top
        exact .inl ⟨[c], b, left, heir.kept.trans kept⟩
      | flushes top left here ties =>
        obtain ⟨rfl, rfl⟩ := same top
        cases kept
      | turns top left ties =>
        obtain ⟨rfl, rfl⟩ := same top
        cases kept
      | handsBack top left ties =>
        obtain ⟨rfl, rfl⟩ := same top
        exact .inr ⟨_, stack, left⟩
      | connects top left ties =>
        obtain ⟨rfl, rfl⟩ := same top
        exact .inl ⟨[], _, left, kept⟩
      | detaches top held here left ties =>
        obtain ⟨rfl, rfl⟩ := same top
        exact .inl ⟨_, _, left, kept⟩

/-- A program for a value has stood on `below` since it was begun in move `b`. -/
structure IsAtWork (ws : Nat → World H) (keep : Keep) (p : Program H) (below : List (Activity H))
    (b m : Nat) : Prop where
  lt : b < m
  begun : (ws (b + 1)).stack = .program p (some keep) :: below
  stands : ∀ l, b < l → l ≤ m → StandsFor keep below (ws l)

namespace IsAtWork

variable {p : Program H}

theorem of_begun (begun : (ws (b + 1)).stack = .program p (some keep) :: below) :
    IsAtWork ws keep p below b (b + 1) where
  lt := Nat.lt_succ_self b
  begun := begun
  stands l lower upper := by
    obtain rfl : l = b + 1 := Nat.le_antisymm upper lower
    exact ⟨[], _, begun, rfl⟩

theorem next (atWork : IsAtWork ws keep p below b m) (stands : StandsFor keep below (ws (m + 1))) :
    IsAtWork ws keep p below b (m + 1) where
  lt := Nat.lt_succ_of_lt atWork.lt
  begun := atWork.begun
  stands l lower upper := by
    rcases Nat.le_succ_iff.mp upper with earlier | rfl
    · exact atWork.stands l lower earlier
    · exact stands

/-- When only this program is at work for its slot and it is still so behind a move, then it stands
where it did. -/
theorem next_of_keeps (atWork : IsAtWork ws keep p below b m) (next : Next (ws m) (ws (m + 1)))
    (isFor : keep.isFor i k = true) (only : keptFor i k (ws m).stack = [keep])
    (still : keptFor i k (ws (m + 1)).stack = [keep]) : IsAtWork ws keep p below b (m + 1) := by
  obtain ⟨above, a, stack, kept⟩ := atWork.stands m atWork.lt (Nat.le_refl m)
  rcases StandsFor.next ⟨above, a, stack, kept⟩ next with stands | ⟨t, top, left⟩
  · exact atWork.next stands
  · -- it would have ended, and then none is left
    obtain ⟨rfl, -⟩ : above = [] ∧ a = t := by
      have lengths := congrArg List.length (stack.symm.trans top)
      obtain rfl : above = [] := List.eq_nil_of_length_eq_zero (by simpa using lengths)
      exact ⟨rfl, (List.cons.inj (stack.symm.trans top)).1⟩
    rw [stack, List.nil_append, keptFor_cons_of_kept kept isFor] at only
    rw [left, (List.cons.inj only).2] at still
    cases still

/-- When only this program is at work for its slot and one for the slot is on top, then it is this
one. -/
theorem top_of_only {a : Activity H} {stack : List (Activity H)} {keep' : Keep}
    (atWork : IsAtWork ws keep p below b m) (isFor : keep.isFor i k = true)
    (only : keptFor i k (ws m).stack = [keep]) (top : (ws m).stack = a :: stack)
    (kept : a.kept? = some keep') (isFor' : keep'.isFor i k = true) :
    keep' = keep ∧ stack = below := by
  obtain ⟨above, f, standing, keeps⟩ := atWork.stands m atWork.lt (Nat.le_refl m)
  rw [top, keptFor_cons_of_kept kept isFor'] at only
  obtain ⟨rfl, none_left⟩ := List.cons.inj only
  refine ⟨rfl, ?_⟩
  cases above with
  | nil => exact (List.cons.inj (top.symm.trans standing)).2
  | cons t above =>
    rw [List.cons_append] at standing
    rw [(List.cons.inj (top.symm.trans standing)).2, keptFor_append,
      keptFor_cons_of_kept keeps isFor] at none_left
    exact absurd (List.append_eq_nil_iff.mp none_left).2 (List.cons_ne_nil _ _)

end IsAtWork

/-- A program that was begun in move `b`, and stood where it was begun, ends with `v` in move
`e`. -/
inductive Yields (ws : Nat → World H) (keep : Keep) (p : Program H) (v : Option SlotValue)
    (b e : Nat) : Prop
  | intro {below : List (Activity H)} {q : Program H} (atWork : IsAtWork ws keep p below b e)
    (ended : (ws e).stack = .program q (some keep) :: below) (ends : q.Ends v)

end World

end LiveMarkup
