import LiveMarkup.Settle
import Mathlib.Data.List.Nodup

/-!
# What settling waits for

The pending values that settling comes to are listed in the order of the source, those in what comes
of one right behind it (`Value.waits`). They are waited for in this order up to the first that has
been waited for before or comes to a failure; `Wait.Comes` says so in terms of the list. When there
is no such one, each stands replaced by what comes of it (`Value.settled`). `Value.settle_eq` is the
step over values: settling a value is waiting for what the list of it says.
-/

namespace LiveMarkup

/-- A pending value that settling comes to: which one it is, the label to note, and the message if
it comes to a failure. -/
structure Wait where
  id : Nat
  label : Option Text
  failure : Option Text
  deriving DecidableEq, Repr

namespace Value

mutual

/-- The pending values in a value, depth first, with those in what comes of them. -/
def waits : Value → List Wait
  | .pending id label (.error message) => [⟨id, label, some message⟩]
  | .pending id label (.ok v) => ⟨id, label, none⟩ :: waits v
  | .template _ values => waitsAll values
  | .list items => waitsAll items
  | _ => []

/-- The pending values in some values, from left to right. -/
def waitsAll : List Value → List Wait
  | [] => []
  | v :: vs => waits v ++ waitsAll vs

end

mutual

/-- The value with what comes of each pending value in its place. One that comes to a failure
stays. -/
def settled : Value → Value
  | .pending id label (.error message) => .pending id label (.error message)
  | .pending _ _ (.ok v) => settled v
  | .template t values => .template t (settledAll values)
  | .list items => .list (settledAll items)
  | v => v

/-- The values, each with what comes of its pending values in their places. -/
def settledAll : List Value → List Value
  | [] => []
  | v :: vs => settled v :: settledAll vs

end

theorem settledAll_eq_map (vs : List Value) : settledAll vs = vs.map settled := by
  induction vs with
  | nil => rfl
  | cons v vs ih => rw [settledAll, ih, List.map_cons]

mutual

/-- Where nothing fails, nothing pending is left. -/
theorem waits_settled : (v : Value) → (∀ w ∈ v.waits, w.failure = none) → v.settled.waits = []
  | .pending _ _ (.error _), h => by simp [waits] at h
  | .pending _ _ (.ok v), h => by
    rw [waits, List.forall_mem_cons] at h
    rw [settled]
    exact waits_settled v h.2
  | .template t values, h => by
    rw [settled, waits]
    exact waitsAll_settledAll values h
  | .list items, h => by
    rw [settled, waits]
    exact waitsAll_settledAll items h
  | .null, _ | .nothing, _ | .bool _, _ | .number _, _ | .string _, _ | .raw _, _ | .json _, _
  | .function, _ | .directive _, _ => rfl

/-- Where nothing fails in some values, nothing pending is left in them. -/
theorem waitsAll_settledAll : (vs : List Value) → (∀ w ∈ waitsAll vs, w.failure = none) →
    waitsAll (settledAll vs) = []
  | [], _ => rfl
  | v :: vs, h => by
    rw [waitsAll, List.forall_mem_append] at h
    rw [settledAll, waitsAll, waits_settled v h.1, waitsAll_settledAll vs h.2, List.nil_append]

end

end Value

/-! ## Waiting for them one after the other -/

namespace Wait

/-- What has been waited for once the given pending values have been too. -/
def takenAfter (taken : List Nat) (ws : List Wait) : List Nat := (ws.map Wait.id).reverse ++ taken

/-- Each of the pending values can be waited for and comes to a value, when `taken` have been waited
for before. -/
structure AllCome (taken : List Nat) (ws : List Wait) : Prop where
  fresh : ∀ w ∈ ws, w.id ∉ taken
  nodup : (ws.map Wait.id).Nodup
  succeeds : ∀ w ∈ ws, w.failure = none

/-- How waiting for pending values one after the other ends: those that are waited for, and the
fault that ends it early. -/
inductive Comes (taken : List Nat) (ws : List Wait) : List Wait → Option ResolveError → Prop
  | all (h : AllCome taken ws) : Comes taken ws ws none
  | consumed {before after : List Wait} {w : Wait} (split : ws = before ++ w :: after)
    (h : AllCome taken before) (again : w.id ∈ taken ∨ w.id ∈ before.map Wait.id) :
    Comes taken ws before (some .pendingConsumed)
  | failed {before after : List Wait} {w : Wait} {message : Text}
    (split : ws = before ++ w :: after) (h : AllCome taken before)
    (first : w.id ∉ taken ∧ w.id ∉ before.map Wait.id) (fails : w.failure = some message) :
    Comes taken ws (before ++ [w]) (some (.pendingFailed message))

/-- Wait for pending values up to the first fault. -/
def run (taken : List Nat) : List Wait → List Wait × Option ResolveError
  | [] => ([], none)
  | w :: ws =>
    if w.id ∈ taken then ([], some .pendingConsumed)
    else
      match w.failure with
      | some message => ([w], some (.pendingFailed message))
      | none => ((w :: (run (w.id :: taken) ws).1), (run (w.id :: taken) ws).2)

variable {taken : List Nat} {w : Wait} {ws rest visited : List Wait} {fault : Option ResolveError}

theorem takenAfter_cons :
    takenAfter taken (w :: ws) = takenAfter (w.id :: taken) ws := by
  simp [takenAfter]

theorem takenAfter_append :
    takenAfter taken (ws ++ rest) = takenAfter (takenAfter taken ws) rest := by
  simp [takenAfter]

theorem mem_takenAfter {n : Nat} : n ∈ takenAfter taken ws ↔ n ∈ taken ∨ n ∈ ws.map Wait.id := by
  simp [takenAfter, or_comm]

theorem allCome_nil (taken : List Nat) : AllCome taken [] := ⟨nofun, .nil, nofun⟩

/-- The others can be waited for when the first of them has been. -/
theorem allCome_cons : AllCome taken (w :: ws) ↔
    w.id ∉ taken ∧ w.failure = none ∧ AllCome (w.id :: taken) ws := by
  constructor
  · rintro ⟨hfresh, hnodup, hsucceeds⟩
    rw [List.forall_mem_cons] at hfresh hsucceeds
    rw [List.map_cons, List.nodup_cons] at hnodup
    refine ⟨hfresh.1, hsucceeds.1, ⟨fun v hv hmem => ?_, hnodup.2, hsucceeds.2⟩⟩
    rcases List.mem_cons.mp hmem with heq | hmem
    · exact hnodup.1 (heq ▸ List.mem_map_of_mem hv)
    · exact hfresh.2 v hv hmem
  · rintro ⟨hw, hnone, hfresh, hnodup, hsucceeds⟩
    refine ⟨List.forall_mem_cons.mpr ⟨hw, fun v hv hmem => ?_⟩, ?_,
      List.forall_mem_cons.mpr ⟨hnone, hsucceeds⟩⟩
    · exact hfresh v hv (List.mem_cons_of_mem _ hmem)
    · rw [List.map_cons, List.nodup_cons]
      refine ⟨fun hmem => ?_, hnodup⟩
      obtain ⟨v, hv, heq⟩ := List.mem_map.mp hmem
      exact hfresh v hv (heq ▸ List.mem_cons_self)

theorem run_cons (hfresh : w.id ∉ taken) (hnone : w.failure = none) :
    run taken (w :: ws) = (w :: (run (w.id :: taken) ws).1, (run (w.id :: taken) ws).2) := by
  rw [run, if_neg hfresh, hnone]

/-- Those that all come are waited for, and then the rest. -/
theorem run_append_of_allCome (h : AllCome taken ws) :
    run taken (ws ++ rest) = (ws ++ (run (takenAfter taken ws) rest).1,
      (run (takenAfter taken ws) rest).2) := by
  induction ws generalizing taken with
  | nil => rfl
  | cons w ws ih =>
    obtain ⟨hfresh, hnone, hrest⟩ := allCome_cons.mp h
    rw [List.cons_append, run_cons hfresh hnone, ih hrest, takenAfter_cons, List.cons_append]

/-- The run is the way in which waiting ends. -/
theorem comes_iff : Comes taken ws visited fault ↔ run taken ws = (visited, fault) := by
  constructor
  · intro h
    cases h with
    | all h =>
      have hrun : run taken (ws ++ []) = _ := run_append_of_allCome h
      simpa [run] using hrun
    | @consumed _ after w split h again =>
      have hagain : w.id ∈ takenAfter taken visited := mem_takenAfter.mpr again
      rw [split, run_append_of_allCome h, run, if_pos hagain, List.append_nil]
    | @failed before after w message split h first fails =>
      have hfirst : w.id ∉ takenAfter taken before :=
        fun hmem => (mem_takenAfter.mp hmem).elim first.1 first.2
      rw [split, run_append_of_allCome h, run, if_neg hfirst, fails]
  · intro h
    induction ws generalizing taken visited fault with
    | nil =>
      cases h
      exact .all (allCome_nil taken)
    | cons w ws ih =>
      by_cases hmem : w.id ∈ taken
      · rw [run, if_pos hmem] at h
        cases h
        exact .consumed (List.nil_append _).symm (allCome_nil taken) (.inl hmem)
      · cases hfailure : w.failure with
        | some message =>
          rw [run, if_neg hmem, hfailure] at h
          cases h
          exact .failed (List.nil_append _).symm (allCome_nil taken) ⟨hmem, List.not_mem_nil⟩
            hfailure
        | none =>
          have hcons {before : List Wait} (hbefore : AllCome (w.id :: taken) before) :
              AllCome taken (w :: before) := allCome_cons.mpr ⟨hmem, hfailure, hbefore⟩
          rw [run_cons hmem hfailure] at h
          obtain ⟨rfl, rfl⟩ := Prod.mk.inj h
          cases hrun : run (w.id :: taken) ws with
          | mk rest fault =>
            cases ih hrun with
            | all hall => exact .all (hcons hall)
            | consumed split hbefore again =>
              refine .consumed (by rw [split, List.cons_append]) (hcons hbefore) ?_
              simpa [or_assoc, or_left_comm] using again
            | @failed before _ x _ split hbefore first fails =>
              have hfirst : x.id ∉ taken ∧ x.id ∉ (w :: before).map Wait.id := by
                simpa [not_or, and_assoc, and_left_comm] using first
              exact .failed (by rw [split, List.cons_append]) (hcons hbefore) hfirst fails

/-- Waiting ends in one way only. -/
theorem existsUnique_comes (taken : List Nat) (ws : List Wait) :
    ∃! out : List Wait × Option ResolveError, Comes taken ws out.1 out.2 :=
  ⟨run taken ws, comes_iff.mpr rfl, fun _ h => (comes_iff.mp h).symm⟩

/-- When nothing goes wrong, all are waited for and come. -/
theorem allCome_of_run (h : (run taken ws).2 = none) :
    AllCome taken ws ∧ (run taken ws).1 = ws := by
  have hcomes : Comes taken ws (run taken ws).1 none := comes_iff.mpr (Prod.ext rfl h)
  generalize (run taken ws).1 = visited at hcomes
  cases hcomes with
  | all h => exact ⟨h, rfl⟩

/-- Waiting does not find a value still pending. -/
theorem run_ne_pendingValue : (run taken ws).2 ≠ some .pendingValue := by
  intro h
  have hcomes : Comes taken ws (run taken ws).1 (some .pendingValue) :=
    comes_iff.mpr (Prod.ext rfl h)
  generalize (run taken ws).1 = visited at hcomes
  cases hcomes

/-- What follows a fault is not waited for. -/
theorem run_append_of_fault {e : ResolveError} (h : (run taken ws).2 = some e) :
    run taken (ws ++ rest) = run taken ws := by
  induction ws generalizing taken with
  | nil => cases h
  | cons w ws ih =>
    by_cases hmem : w.id ∈ taken
    · rw [List.cons_append, run, run, if_pos hmem, if_pos hmem]
    · cases hfailure : w.failure with
      | some message => rw [List.cons_append, run, run, if_neg hmem, if_neg hmem, hfailure]
      | none =>
        rw [run_cons hmem hfailure] at h ⊢
        rw [List.cons_append, run_cons hmem hfailure, ih h]

end Wait

/-! ## Settling waits for the list -/

/-- The state once the given pending values have been waited for. -/
def Settling.after (s : Settling) (ws : List Wait) : Settling :=
  ⟨Wait.takenAfter s.taken ws, s.polled ++ ws.flatMap fun w => w.label.toList⟩

theorem Settling.after_taken (s : Settling) (ws : List Wait) :
    (s.after ws).taken = Wait.takenAfter s.taken ws := rfl

theorem Settling.after_nil (s : Settling) : s.after [] = s := by
  simp [after, Wait.takenAfter]

theorem Settling.after_cons (s : Settling) (w : Wait) (ws : List Wait) :
    s.after (w :: ws) = Settling.after ⟨w.id :: s.taken, s.polled ++ w.label.toList⟩ ws := by
  simp [after, Wait.takenAfter]

theorem Settling.after_append (s : Settling) (ws rest : List Wait) :
    s.after (ws ++ rest) = (s.after ws).after rest := by
  simp [after, Wait.takenAfter]

namespace Wait

/-- What comes of it all: the fault, or else the value. -/
def answer {α : Type} (value : α) : Option ResolveError → Except ResolveError α
  | none => .ok value
  | some e => .error e

end Wait

namespace Value

mutual

/-- Settling a value is waiting for what is pending in it, and putting what comes of it in place. -/
theorem settle_eq : (v : Value) → (s : Settling) →
    v.settle s = (Wait.answer v.settled (Wait.run s.taken v.waits).2,
      s.after (Wait.run s.taken v.waits).1)
  | .pending id label outcome, s => by
    by_cases hmem : id ∈ s.taken
    · cases outcome <;> simp [settle, waits, Wait.run, Wait.answer, Settling.after_nil, hmem]
    · cases outcome with
      | error message =>
        simp [settle, waits, Wait.run, Wait.answer, Settling.after_cons, Settling.after_nil, hmem]
      | ok v =>
        have ih := settle_eq v ⟨id :: s.taken, s.polled ++ label.toList⟩
        simp [settle, settled, waits, Wait.run, Settling.after_cons, hmem, ih]
  | .template t values, s => by
    rw [settle, settleAll_eq values s, waits, settled]
    cases (Wait.run s.taken (waitsAll values)).2 <;> rfl
  | .list items, s => by
    rw [settle, settleAll_eq items s, waits, settled]
    cases (Wait.run s.taken (waitsAll items)).2 <;> rfl
  | .null, s | .nothing, s | .bool _, s | .number _, s | .string _, s | .raw _, s | .json _, s
  | .function, s | .directive _, s => by
    simp [settle, waits, settled, Wait.run, Wait.answer, Settling.after_nil]

/-- Settling some values is waiting for what is pending in them, from left to right. -/
theorem settleAll_eq : (vs : List Value) → (s : Settling) →
    settleAll vs s = (Wait.answer (settledAll vs) (Wait.run s.taken (waitsAll vs)).2,
      s.after (Wait.run s.taken (waitsAll vs)).1)
  | [], s => by simp [settleAll, waitsAll, settledAll, Wait.run, Wait.answer, Settling.after_nil]
  | v :: vs, s => by
    rw [settleAll, settle_eq v s, waitsAll, settledAll]
    cases hfault : (Wait.run s.taken v.waits).2 with
    | some e =>
      rw [Wait.run_append_of_fault hfault, hfault]
      rfl
    | none =>
      obtain ⟨hcome, hvisited⟩ := Wait.allCome_of_run hfault
      rw [hvisited, Wait.run_append_of_allCome hcome, Settling.after_append]
      simp only [Wait.answer]
      rw [settleAll_eq vs (s.after v.waits), Settling.after_taken]
      cases (Wait.run (Wait.takenAfter s.taken v.waits) (waitsAll vs)).2 <;> rfl

end

end Value

end LiveMarkup
