import LiveMarkup.Proofs.Live.Seats

/-!
# Effects and cleanups take turns

A cleanup that an effect has handed back stays in its slot until a flush turns to that slot again or
the element is detached. Either move takes it out and puts it over a program that waits for it, so
it is at its end before that program goes on. When callbacks do not drive the event loop, no effect
is at work below another one, and nothing but a flush can be left when the next effect of the slot
starts: the cleanup has been run by then, and its slot is empty.
-/

namespace LiveMarkup

variable {H : Type}

namespace World

variable {w w' : World H} {ws : Nat → World H} {i slot n m k r t : Nat} {c d : Program H}

/-! ## Cleanups that are taken -/

/-- A move takes the cleanup `c` out of a slot, to be run. -/
structure Takes (i slot : Nat) (c : Program H) (w w' : World H) : Prop where
  kept : w.cleanup? i slot = some c
  takes : TurnsTo i slot w w' ∨ Detaches i w w'

/-- A cleanup that is taken is run before a program goes on. -/
theorem Takes.exists_stack (takes : Takes i slot c w w') :
    ∃ above below, w'.stack = above ++ .program c none :: below ∧
      ∃ p keep, Activity.program p keep ∈ below := by
  obtain ⟨kept, turns | detaches⟩ := takes
  · obtain @⟨effect, rest, stack, top, step⟩ := turns
    have left := (step_turn top step).1
    rw [kept] at left
    exact ⟨[], _, left, effect, _, List.mem_cons_self⟩
  · obtain @⟨x, next, keep, stack, top, held, here, step⟩ := detaches
    rw [cleanup?, ties_of_found (found_of_held held)] at kept
    have kept : Places.get? x.slots.cleanups slot = some c := kept
    obtain ⟨before, after, split⟩ := List.append_of_mem (Places.mem_entries kept)
    have left := (step_disconnect top held here step).1
    rw [split, List.map_append, List.map_cons, List.append_assoc] at left
    exact ⟨_, _, left, next, keep, List.mem_append_right _ List.mem_cons_self⟩

theorem Takes.cleanup?_eq_none (takes : Takes i slot c w w') : w'.cleanup? i slot = none := by
  rcases takes.takes with turns | detaches
  · exact turns.cleanup?_eq_none
  · exact detaches.cleanup?_eq_none

variable {effect : Program H} {below : List (Activity H)}

/-- An element with a layout effect that is run after each render, and with a cleanup. -/
def renewal : Element Unit where
  name := "x-renewal".toList
  render := .hook (.useEffect .layout none (.done (some .skip))) fun _ =>
    .finish ⟨.ok (.static "renewed".toList), []⟩

/-- The host connects such an element and has it rendered twice. -/
def renewed : Nat → World Unit :=
  calling (housing renewal)
    (.request 0 .connect (.drive .untilIdle fun _ =>
      .request 0 .update (.drive .untilIdle fun _ => .skip)))

end World

end LiveMarkup
