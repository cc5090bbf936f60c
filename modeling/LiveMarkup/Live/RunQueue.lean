import LiveMarkup.Element.Program

/-!
# Run-queues

A run-queue gathers items and hands them over in one job on the event loop. Only the push that
ends its emptiness asks for such a job; the job goes on until the queue is empty, and takes what is
pushed meanwhile.
-/

namespace LiveMarkup

/-- Which item a run-queue hands over next. -/
inductive DequeuePolicy where
  /-- The oldest. -/
  | fifo
  /-- The newest. -/
  | filo
  deriving DecidableEq, Repr, Inhabited

/-- A queue of items, the oldest first. -/
structure RunQueue (α : Type) where
  runner : Runner
  policy : DequeuePolicy
  items : List α := []
  deriving Repr

namespace RunQueue

variable {α : Type}

/-- Put an item into the queue. Tells whether a job has to be asked for. -/
def push (q : RunQueue α) (a : α) : Bool × RunQueue α :=
  (q.items.isEmpty, { q with items := q.items ++ [a] })

/-- Take the item that comes next. -/
def pick (q : RunQueue α) : Option (α × RunQueue α) :=
  match q.policy with
  | .fifo =>
    match q.items with
    | [] => none
    | a :: items => some (a, { q with items })
  | .filo =>
    match q.items.getLast? with
    | none => none
    | some a => some (a, { q with items := q.items.dropLast })

theorem pick_eq_none_iff {q : RunQueue α} : q.pick = none ↔ q.items = [] := by
  unfold pick
  cases q.policy with
  | fifo => cases q.items <;> simp
  | filo =>
    cases last : q.items.getLast? with
    | none => simpa using List.getLast?_eq_none_iff.mp last
    | some a =>
      have nonempty : q.items ≠ [] := fun empty => by simp [empty] at last
      simp [nonempty]

/-- The item that comes next is taken out of the queue, and nothing else. -/
theorem perm_of_pick {q q' : RunQueue α} {a : α} (picked : q.pick = some (a, q')) :
    q.items.Perm (a :: q'.items) := by
  unfold pick at picked
  split at picked
  · cases items : q.items with
    | nil => simp [items] at picked
    | cons b rest =>
      simp only [items, Option.some.injEq, Prod.mk.injEq] at picked
      obtain ⟨rfl, rfl⟩ := picked
      exact .refl _
  · cases last : q.items.getLast? with
    | none => simp [last] at picked
    | some b =>
      simp only [last, Option.some.injEq, Prod.mk.injEq] at picked
      obtain ⟨rfl, rfl⟩ := picked
      obtain ⟨before, items⟩ := List.getLast?_eq_some_iff.mp last
      rw [items, List.dropLast_concat]
      exact List.perm_append_comm

end RunQueue

end LiveMarkup
