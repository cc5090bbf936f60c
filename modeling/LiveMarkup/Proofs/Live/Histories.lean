import LiveMarkup.Live.RunQueue
import Mathlib.Data.List.Forall2

/-!
# Histories of run-queues

What has happened to a run-queue is a history: at each moment an item may have been pushed, or one
may have been handed over. To tell equal items apart, each item is given the moment of its push on a
slip, and the slips wait in a queue of their own (`slips`). So each hand-over has an origin, the
push of what it hands over. No two have the same, and pushes that are the origin of none are those
of the items that wait. The oldest first means that origins come in their order, and the newest
first that everything pushed after the origin of a hand-over has been handed over before it.
-/

namespace LiveMarkup

/-! ## Policies -/

namespace DequeuePolicy

variable {α : Type}

/-- The items of a queue in which `a` comes next and `others` after it. -/
def join (policy : DequeuePolicy) (a : α) (others : List α) : List α :=
  match policy with
  | .fifo => a :: others
  | .filo => others ++ [a]

/-- What comes next. -/
def first? (policy : DequeuePolicy) (items : List α) : Option α :=
  match policy with
  | .fifo => items.head?
  | .filo => items.getLast?

/-- What stays when the next item is taken. -/
def others (policy : DequeuePolicy) (items : List α) : List α :=
  match policy with
  | .fifo => items.tail
  | .filo => items.dropLast

variable {policy : DequeuePolicy} {a b : α} {items : List α}

@[simp] theorem first?_join : policy.first? (policy.join a items) = some a := by
  cases policy with
  | fifo => rfl
  | filo => exact List.getLast?_concat

@[simp] theorem others_join : policy.others (policy.join a items) = items := by
  cases policy with
  | fifo => rfl
  | filo => exact List.dropLast_concat

theorem perm_join : (policy.join a items).Perm (a :: items) := by
  cases policy with
  | fifo => exact .refl _
  | filo => exact List.perm_append_singleton a items

theorem mem_join : b ∈ policy.join a items ↔ b = a ∨ b ∈ items :=
  perm_join.mem_iff.trans List.mem_cons

/-- Items that go with those of a queue come in the same order. -/
theorem exists_of_forall₂_join {β : Type} {R : β → α → Prop} {slips : List β}
    (related : List.Forall₂ R slips (policy.join a items)) :
    ∃ b others, slips = policy.join b others ∧ R b a ∧ List.Forall₂ R others items := by
  cases policy with
  | fifo =>
    cases related with
    | cons first rest => exact ⟨_, _, rfl, first, rest⟩
  | filo =>
    have reversed := List.forall₂_reverse_iff.mpr related
    rw [join, List.reverse_append] at reversed
    generalize eq : slips.reverse = slips' at reversed
    cases reversed with
    | @cons b _ others _ first rest =>
      refine ⟨b, others.reverse, ?_, first, ?_⟩
      · rw [← List.reverse_reverse slips, eq, List.reverse_cons]
        rfl
      · rw [← List.reverse_reverse items]
        exact List.forall₂_reverse_iff.mpr rest

end DequeuePolicy

theorem exists_of_mem_forall₂ {α β : Type} {R : β → α → Prop} {slips : List β} {items : List α}
    (related : List.Forall₂ R slips items) {b : β} (mem : b ∈ slips) : ∃ a ∈ items, R b a := by
  induction related with
  | nil => cases mem
  | cons first _ ih =>
    rcases List.mem_cons.mp mem with rfl | mem
    · exact ⟨_, List.mem_cons_self, first⟩
    · obtain ⟨a, mem, related⟩ := ih mem
      exact ⟨a, List.mem_cons_of_mem _ mem, related⟩

/-! ## Histories -/

namespace RunQueue

variable {α : Type} {q q' : RunQueue α} {a : α}

/-- What comes next is what the policy puts first. -/
theorem pick_eq_some (picked : q.pick = some (a, q')) :
    q' = { q with items := q'.items } ∧ q.items = q.policy.join a q'.items := by
  unfold pick at picked
  split at picked
  · next fifo =>
    cases items : q.items with
    | nil => simp [items] at picked
    | cons b rest =>
      simp only [items, Option.some.injEq, Prod.mk.injEq] at picked
      obtain ⟨rfl, rfl⟩ := picked
      exact ⟨rfl, by rw [fifo]; rfl⟩
  · next filo =>
    cases last : q.items.getLast? with
    | none => simp [last] at picked
    | some b =>
      simp only [last, Option.some.injEq, Prod.mk.injEq] at picked
      obtain ⟨rfl, rfl⟩ := picked
      obtain ⟨before, items⟩ := List.getLast?_eq_some_iff.mp last
      refine ⟨rfl, ?_⟩
      rw [filo, items, List.dropLast_concat]
      rfl

/-- The item `a` has been pushed. -/
def Pushed (a : α) (q q' : RunQueue α) : Prop := q' = (q.push a).2

/-- The item `a` has been handed over. -/
def Handed (a : α) (q q' : RunQueue α) : Prop := q.pick = some (a, q')

theorem Pushed.length_eq (pushed : Pushed a q q') : q'.items.length = q.items.length + 1 := by
  rw [pushed, push, List.length_append]
  rfl

theorem Handed.length_eq (handed : Handed a q q') : q.items.length = q'.items.length + 1 :=
  (perm_of_pick handed).length_eq

/-- A queue as it is from moment to moment, from when it was empty: at each moment before `n` it
stays as it is, or one item is pushed, or one is handed over. -/
structure History (qs : Nat → RunQueue α) (n : Nat) : Prop where
  empty : (qs 0).items = []
  next : ∀ k < n, qs (k + 1) = qs k ∨ (∃ a, Pushed a (qs k) (qs (k + 1))) ∨
    ∃ a, Handed a (qs k) (qs (k + 1))

variable {qs : Nat → RunQueue α} {n k m j : Nat}

/-- The moments at which the items have been pushed that wait. -/
def slips (qs : Nat → RunQueue α) : Nat → List Nat
  | 0 => []
  | k + 1 =>
    if (qs k).items.length < (qs (k + 1)).items.length then slips qs k ++ [k]
    else if (qs (k + 1)).items.length < (qs k).items.length then
      (qs k).policy.others (slips qs k)
    else slips qs k

/-- The moment at which the item has been pushed that is handed over next. -/
def origin (qs : Nat → RunQueue α) (k : Nat) : Nat := ((qs k).policy.first? (slips qs k)).getD 0

theorem slips_keeps (same : qs (k + 1) = qs k) : slips qs (k + 1) = slips qs k := by
  rw [slips, same, if_neg (Nat.lt_irrefl _), if_neg (Nat.lt_irrefl _)]

theorem slips_pushed (pushed : Pushed a (qs k) (qs (k + 1))) :
    slips qs (k + 1) = slips qs k ++ [k] := by
  have longer := pushed.length_eq
  rw [slips, if_pos (by omega)]

theorem slips_handed (handed : Handed a (qs k) (qs (k + 1))) :
    slips qs (k + 1) = (qs k).policy.others (slips qs k) := by
  have shorter := handed.length_eq
  rw [slips, if_neg (by omega), if_pos (by omega)]

namespace History

variable (history : History qs n)

include history

theorem policy_eq (le : k ≤ n) : (qs k).policy = (qs 0).policy := by
  induction k with
  | zero => rfl
  | succ k ih =>
    refine Eq.trans ?_ (ih (Nat.le_of_succ_le le))
    rcases history.next k le with same | ⟨a, pushed⟩ | ⟨a, handed⟩
    · rw [same]
    · rw [pushed]
      rfl
    · rw [(pick_eq_some handed).1]

/-- The slips are those of the items that wait. -/
theorem forall₂_slips (le : k ≤ n) :
    List.Forall₂ (fun m a => m < k ∧ Pushed a (qs m) (qs (m + 1))) (slips qs k) (qs k).items := by
  induction k with
  | zero =>
    rw [history.empty]
    exact .nil
  | succ k ih =>
    have before : List.Forall₂ (fun m a => m < k + 1 ∧ Pushed a (qs m) (qs (m + 1)))
        (slips qs k) (qs k).items :=
      (ih (Nat.le_of_succ_le le)).imp fun m a ⟨lt, pushed⟩ => ⟨Nat.lt_succ_of_lt lt, pushed⟩
    rcases history.next k le with same | ⟨a, pushed⟩ | ⟨a, handed⟩
    · rw [slips_keeps same, same]
      exact before
    · have items : (qs (k + 1)).items = (qs k).items ++ [a] := by rw [pushed]; rfl
      rw [slips_pushed pushed, items]
      exact List.rel_append before (.cons ⟨Nat.lt_succ_self k, pushed⟩ .nil)
    · rw [(pick_eq_some handed).2] at before
      obtain ⟨m, others, slips, -, rest⟩ := DequeuePolicy.exists_of_forall₂_join before
      rw [slips_handed handed, slips, DequeuePolicy.others_join]
      exact rest

/-- The slip of what is handed over is taken, and the others stay. -/
theorem slips_eq_join (lt : k < n) (handed : Handed a (qs k) (qs (k + 1))) :
    slips qs k = (qs k).policy.join (origin qs k) (slips qs (k + 1)) ∧ origin qs k < k ∧
      Pushed a (qs (origin qs k)) (qs (origin qs k + 1)) := by
  have before := history.forall₂_slips (Nat.le_of_lt lt)
  rw [(pick_eq_some handed).2] at before
  obtain ⟨m, others, slips, pushed, -⟩ := DequeuePolicy.exists_of_forall₂_join before
  have origin_eq : origin qs k = m := by
    rw [origin, slips, DequeuePolicy.first?_join]
    rfl
  rw [origin_eq, slips_handed handed, slips, DequeuePolicy.others_join]
  exact ⟨rfl, pushed⟩

theorem lt_of_mem_slips (le : k ≤ n) (mem : m ∈ slips qs k) : m < k :=
  ((List.forall₂_and_left _ _).mp (history.forall₂_slips le)).1 m mem

/-- What has a slip waits. -/
theorem mem_items (le : k ≤ n) (waits : m ∈ slips qs k) (pushed : Pushed a (qs m) (qs (m + 1))) :
    a ∈ (qs k).items := by
  obtain ⟨b, mem, -, pushed'⟩ := exists_of_mem_forall₂ (history.forall₂_slips le) waits
  have items := congrArg RunQueue.items (pushed.symm.trans pushed')
  obtain rfl : a = b := by simpa [push] using items
  exact mem

theorem pairwise_slips (le : k ≤ n) : (slips qs k).Pairwise (· < ·) := by
  induction k with
  | zero => exact .nil
  | succ k ih =>
    have sorted := ih (Nat.le_of_succ_le le)
    rcases history.next k le with same | ⟨a, pushed⟩ | ⟨a, handed⟩
    · rw [slips_keeps same]
      exact sorted
    · rw [slips_pushed pushed]
      refine List.pairwise_append.mpr ⟨sorted, List.pairwise_singleton _ _, ?_⟩
      intro m waits l last
      rw [List.mem_singleton.mp last]
      exact history.lt_of_mem_slips (Nat.le_of_succ_le le) waits
    · rw [(history.slips_eq_join le handed).1] at sorted
      unfold DequeuePolicy.join at sorted
      split at sorted
      · exact (List.pairwise_cons.mp sorted).2
      · exact (List.pairwise_append.mp sorted).1

/-- A push that is the origin of no hand-over is that of an item that waits. -/
theorem mem_slips_or_handed (le : k ≤ n) (lt : m < k) (pushed : Pushed a (qs m) (qs (m + 1))) :
    m ∈ slips qs k ∨ ∃ j, m < j ∧ j < k ∧ origin qs j = m ∧ Handed a (qs j) (qs (j + 1)) := by
  induction lt with
  | refl =>
    rw [slips_pushed pushed]
    exact .inl (List.mem_append_right _ List.mem_cons_self)
  | @step k lt ih =>
    rcases ih (Nat.le_of_succ_le le) with waits | ⟨j, after, before, origin, handed⟩
    · rcases history.next k le with same | ⟨b, pushed'⟩ | ⟨b, handed⟩
      · rw [slips_keeps same]
        exact .inl waits
      · rw [slips_pushed pushed']
        exact .inl (List.mem_append_left _ waits)
      · obtain ⟨join, -, pushed'⟩ := history.slips_eq_join le handed
        rw [join, DequeuePolicy.mem_join] at waits
        rcases waits with rfl | waits
        · -- one moment has one push, so it is the same item
          have items := congrArg RunQueue.items (pushed.symm.trans pushed')
          obtain rfl : a = b := by simpa [push] using items
          exact .inr ⟨k, lt, Nat.lt_succ_self k, rfl, handed⟩
        · exact .inl waits
    · exact .inr ⟨j, after, Nat.lt_succ_of_lt before, origin, handed⟩

/-- What waits has waited before, or has been pushed since. -/
theorem mem_slips_before (le : j ≤ k) (within : k ≤ n) (waits : m ∈ slips qs k) :
    m ∈ slips qs j ∨ j ≤ m := by
  induction le with
  | refl => exact .inl waits
  | @step k le ih =>
    rcases history.next k within with same | ⟨a, pushed⟩ | ⟨a, handed⟩
    · rw [slips_keeps same] at waits
      exact ih (Nat.le_of_succ_le within) waits
    · rw [slips_pushed pushed] at waits
      rcases List.mem_append.mp waits with waits | last
      · exact ih (Nat.le_of_succ_le within) waits
      · rw [List.mem_singleton.mp last]
        exact .inr le
    · refine ih (Nat.le_of_succ_le within) ?_
      rw [(history.slips_eq_join within handed).1, DequeuePolicy.mem_join]
      exact .inr waits

variable {b : α}

theorem origin_mem_slips (lt : k < n) (handed : Handed a (qs k) (qs (k + 1))) :
    origin qs k ∈ slips qs k := by
  rw [(history.slips_eq_join lt handed).1, DequeuePolicy.mem_join]
  exact .inl rfl

/-- What has been handed over does not wait any more. -/
theorem origin_not_mem_slips (lt : j < k) (within : k ≤ n)
    (handed : Handed a (qs j) (qs (j + 1))) : origin qs j ∉ slips qs k := by
  intro waits
  have before := Nat.lt_of_lt_of_le lt within
  obtain ⟨join, earlier, -⟩ := history.slips_eq_join before handed
  rcases history.mem_slips_before lt within waits with here | later
  · have sorted := history.pairwise_slips (Nat.le_of_lt before)
    rw [join] at sorted
    have distinct := sorted.imp Nat.ne_of_lt
    exact (List.nodup_cons.mp ((DequeuePolicy.perm_join.nodup_iff).mp distinct)).1 here
  · exact absurd earlier (Nat.not_lt_of_le (Nat.le_of_succ_le later))

/-- No two hand-overs have the same origin. -/
theorem origin_injective (before : j < n) (within : k < n)
    (first : Handed a (qs j) (qs (j + 1))) (second : Handed b (qs k) (qs (k + 1)))
    (same : origin qs j = origin qs k) : j = k := by
  rcases Nat.lt_trichotomy j k with lt | eq | lt
  · have waits := history.origin_mem_slips within second
    exact absurd (same ▸ waits) (history.origin_not_mem_slips lt (Nat.le_of_lt within) first)
  · exact eq
  · have waits := history.origin_mem_slips before first
    exact absurd (same ▸ waits) (history.origin_not_mem_slips lt (Nat.le_of_lt before) second)

/-- The oldest first: items are handed over in the order in which they have been pushed. -/
theorem origin_lt_origin (fifo : (qs 0).policy = .fifo) (lt : j < k) (within : k < n)
    (first : Handed a (qs j) (qs (j + 1))) (second : Handed b (qs k) (qs (k + 1))) :
    origin qs j < origin qs k := by
  have before := Nat.lt_trans lt within
  obtain ⟨join, earlier, -⟩ := history.slips_eq_join before first
  have waits := history.origin_mem_slips within second
  rcases history.mem_slips_before lt (Nat.le_of_lt within) waits with here | later
  · have sorted := history.pairwise_slips (Nat.le_of_lt before)
    rw [join, history.policy_eq (Nat.le_of_lt before), fifo] at sorted
    exact (List.pairwise_cons.mp sorted).1 _ here
  · exact Nat.lt_of_lt_of_le earlier (Nat.le_of_succ_le later)

/-- The newest first: what is handed over has been pushed last of all that waits. -/
theorem le_origin (filo : (qs 0).policy = .filo) (lt : k < n)
    (handed : Handed a (qs k) (qs (k + 1))) (waits : m ∈ slips qs k) : m ≤ origin qs k := by
  have join := (history.slips_eq_join lt handed).1
  have sorted := history.pairwise_slips (Nat.le_of_lt lt)
  rw [join, history.policy_eq (Nat.le_of_lt lt), filo] at sorted waits
  rcases List.mem_append.mp waits with earlier | same
  · exact Nat.le_of_lt ((List.pairwise_append.mp sorted).2.2 m earlier _ List.mem_cons_self)
  · exact Nat.le_of_eq (List.mem_singleton.mp same)

end History

end RunQueue

end LiveMarkup
