import LiveMarkup.Proofs.Settle.Waits
import Mathlib.Logic.Relation

/-!
# Settling, poll by poll

A pending value is polled until it is ready. A settler holds the value that is being settled and
the rows of values that stand open around it, and takes one step at a time: it polls once, or it
moves on by one value (`Settler.step?`). From any value it comes to the one end that settling the
value says (`Settler.reaches_value`). `TemplateResult.settle_in_order` says for the values of a
template what is polled, in which order, and what comes of it.
-/

namespace LiveMarkup

/-- A poll of a pending value. -/
structure Poll where
  id : Nat
  ready : Bool
  deriving DecidableEq, Repr

/-- The polls of a pending value until it is ready, when so many are in vain. -/
def Poll.tillReady (id vain : Nat) : List Poll := List.replicate vain ⟨id, false⟩ ++ [⟨id, true⟩]

/-- The polls of pending values that are waited for one after the other; `delay` tells how often
each is polled in vain. -/
def Wait.polls (delay : Nat → Nat) (ws : List Wait) : List Poll :=
  ws.flatMap fun w => Poll.tillReady w.id (delay w.id)

/-- What is made of a row of values. -/
inductive Shape where
  | list
  | template (t : Except TemplateError Template)

/-- The value with the given row in it. -/
def Shape.fill : Shape → List Value → Value
  | .list, vs => .list vs
  | .template t, vs => .template t vs

/-- A row that is being settled: the values in it that are settled, and those to come. -/
structure OpenRow where
  shape : Shape
  done : List Value
  todo : List Value

/-- What a settler is at. -/
inductive Focus where
  | value (v : Value)
  /-- Has yet to poll a pending value, so often in vain. -/
  | waiting (id : Nat) (vain : Nat) (outcome : Except Text Value)
  /-- Comes to the next value of the innermost row. -/
  | next
  | settled (v : Value)
  | failed (e : ResolveError)

/-- The state of settling a value between two polls. -/
structure Settler where
  focus : Focus
  /-- The rows that stand open, innermost first. -/
  rows : List OpenRow
  /-- The pending values that have been waited for. -/
  taken : List Nat
  /-- The polls so far. -/
  polls : List Poll

namespace Settler

/-- The next step, if it is not the end. -/
def step? (delay : Nat → Nat) (c : Settler) : Option Settler :=
  match c.focus, c.rows with
  | .value (.pending id _ outcome), _ =>
    if c.taken.contains id then some { c with focus := .failed .pendingConsumed }
    else some { c with focus := .waiting id (delay id) outcome, taken := id :: c.taken }
  | .value (.template t values), rows =>
    some { c with focus := .next, rows := ⟨.template t, [], values⟩ :: rows }
  | .value (.list items), rows => some { c with focus := .next, rows := ⟨.list, [], items⟩ :: rows }
  | .value v, _ => some { c with focus := .settled v }
  | .waiting id (vain + 1) outcome, _ =>
    some { c with focus := .waiting id vain outcome, polls := c.polls ++ [⟨id, false⟩] }
  | .waiting id 0 (.error message), _ =>
    some { c with focus := .failed (.pendingFailed message), polls := c.polls ++ [⟨id, true⟩] }
  | .waiting id 0 (.ok v), _ =>
    some { c with focus := .value v, polls := c.polls ++ [⟨id, true⟩] }
  | .next, ⟨shape, done, []⟩ :: rows =>
    some { c with focus := .settled (shape.fill done), rows := rows }
  | .next, ⟨shape, done, v :: todo⟩ :: rows =>
    some { c with focus := .value v, rows := ⟨shape, done, todo⟩ :: rows }
  | .settled v, ⟨shape, done, todo⟩ :: rows =>
    some { c with focus := .next, rows := ⟨shape, done ++ [v], todo⟩ :: rows }
  | .failed e, _ :: rows => some { c with focus := .failed e, rows := rows }
  | .next, [] | .settled _, [] | .failed _, [] => none

/-- One state comes after another, by any number of steps. -/
abbrev Reaches (delay : Nat → Nat) : Settler → Settler → Prop :=
  Relation.ReflTransGen fun c c' => c.step? delay = some c'

/-- The state when it is about to settle a value. -/
def start (taken : List Nat) (v : Value) : Settler := ⟨.value v, [], taken, []⟩

/-- The state when a value is settled, or a fault has ended it. -/
def ended (v : Value) (fault : Option ResolveError) (rows : List OpenRow) (taken : List Nat)
    (polls : List Poll) : Settler :=
  ⟨match fault with | none => .settled v | some e => .failed e, rows, taken, polls⟩

variable {delay : Nat → Nat} {c d e : Settler}

/-- Polls are only added. -/
theorem polls_step (h : c.step? delay = some d) : c.polls <+: d.polls := by
  unfold step? at h
  split at h <;> try split at h
  all_goals cases h <;> simp

theorem polls_reaches (h : Reaches delay c d) : c.polls <+: d.polls := by
  induction h with
  | refl => exact List.prefix_rfl
  | tail _ hstep ih => exact ih.trans (polls_step hstep)

theorem step?_ended (v : Value) (fault : Option ResolveError) (taken : List Nat)
    (polls : List Poll) : (ended v fault [] taken polls).step? delay = none := by
  cases fault <;> rfl

/-- Whatever is reached from a state leads to the end that is reached from it. -/
theorem reaches_of_reaches (hend : Reaches delay c e) (hnone : e.step? delay = none)
    (h : Reaches delay c d) : Reaches delay d e := by
  have hunique : Relator.RightUnique fun c c' : Settler => c.step? delay = some c' :=
    fun a b b' hb hb' => Option.some.inj (hb.symm.trans hb')
  rcases Relation.ReflTransGen.total_of_right_unique hunique h hend with h | h
  · exact h
  · rcases Relation.ReflTransGen.cases_head h with rfl | ⟨b, hb, -⟩
    · exact .refl
    · rw [hnone] at hb
      cases hb

/-! ## Waiting for one -/

/-- The state when a pending value was ready. -/
def arrived (outcome : Except Text Value) (rows : List OpenRow) (taken : List Nat)
    (polls : List Poll) : Settler :=
  ⟨match outcome with | .ok v => .value v | .error message => .failed (.pendingFailed message),
    rows, taken, polls⟩

theorem reaches_arrived (id : Nat) (outcome : Except Text Value) (rows : List OpenRow)
    (taken : List Nat) (vain : Nat) (polls : List Poll) :
    Reaches delay ⟨.waiting id vain outcome, rows, taken, polls⟩
      (arrived outcome rows taken (polls ++ Poll.tillReady id vain)) := by
  induction vain generalizing polls with
  | zero => cases outcome <;> exact .single rfl
  | succ vain ih =>
    have := ih (polls ++ [⟨id, false⟩])
    rw [List.append_assoc] at this
    exact .head rfl this

/-- A pending value that can be waited for. -/
theorem reaches_pending (delay : Nat → Nat) {id : Nat} {taken : List Nat} (hfresh : id ∉ taken)
    (label : Option Text) (outcome : Except Text Value) (rows : List OpenRow) (polls : List Poll) :
    Reaches delay ⟨.value (.pending id label outcome), rows, taken, polls⟩
      (arrived outcome rows (id :: taken)
        (polls ++ Poll.tillReady id (delay id))) := by
  refine .head ?_ (reaches_arrived id outcome rows (id :: taken) (delay id) polls)
  simp [step?, hfresh]

/-! ## Settling a value, settling a row -/

theorem polls_append (ws rest : List Wait) :
    Wait.polls delay (ws ++ rest) = Wait.polls delay ws ++ Wait.polls delay rest :=
  List.flatMap_append

theorem polls_cons (w : Wait) (ws : List Wait) :
    Wait.polls delay (w :: ws) =
      Poll.tillReady w.id (delay w.id) ++ Wait.polls delay ws :=
  List.flatMap_cons

mutual

/-- A value comes to what waiting for the pending values in it comes to. -/
theorem reaches_value (delay : Nat → Nat) : (v : Value) → (rows : List OpenRow) →
    (taken : List Nat) → (polls : List Poll) → Reaches delay ⟨.value v, rows, taken, polls⟩
      (ended v.settled (Wait.run taken v.waits).2 rows
        (Wait.takenAfter taken (Wait.run taken v.waits).1)
        (polls ++ Wait.polls delay (Wait.run taken v.waits).1))
  | .pending id label outcome, rows, taken, polls => by
    by_cases hmem : id ∈ taken
    · refine .single ?_
      cases outcome <;>
        simp [step?, hmem, Value.waits, Wait.run, ended, Wait.takenAfter, Wait.polls]
    · have harrived := reaches_pending delay hmem label outcome rows polls
      cases outcome with
      | error message =>
        simpa [Value.waits, Wait.run, hmem, ended, arrived, Wait.takenAfter, Wait.polls]
          using harrived
      | ok v =>
        have hv := reaches_value delay v rows (id :: taken)
          (polls ++ Poll.tillReady id (delay id))
        rw [Value.waits, Wait.run_cons hmem rfl, Wait.takenAfter_cons, polls_cons,
          ← List.append_assoc, Value.settled]
        exact harrived.trans hv
  | .template t values, rows, taken, polls => by
    have hrow := reaches_row delay (.template t) [] values rows taken polls
    exact .head rfl hrow
  | .list items, rows, taken, polls => by
    have hrow := reaches_row delay .list [] items rows taken polls
    exact .head rfl hrow
  | .null, _, _, _ | .nothing, _, _, _ | .bool _, _, _, _ | .number _, _, _, _
  | .string _, _, _, _ | .raw _, _, _, _ | .json _, _, _, _ | .function, _, _, _
  | .directive _, _, _, _ => by
    refine .single ?_
    simp [step?, Value.waits, Value.settled, Wait.run, ended, Wait.takenAfter, Wait.polls]

/-- A row comes to what waiting for the pending values in it comes to. -/
theorem reaches_row (delay : Nat → Nat) (shape : Shape) : (done todo : List Value) →
    (rows : List OpenRow) → (taken : List Nat) → (polls : List Poll) →
    Reaches delay ⟨.next, ⟨shape, done, todo⟩ :: rows, taken, polls⟩
      (ended (shape.fill (done ++ Value.settledAll todo)) (Wait.run taken (Value.waitsAll todo)).2
        rows (Wait.takenAfter taken (Wait.run taken (Value.waitsAll todo)).1)
        (polls ++ Wait.polls delay (Wait.run taken (Value.waitsAll todo)).1))
  | done, [], rows, taken, polls => by
    refine .single ?_
    simp [step?, Value.waitsAll, Value.settledAll, Wait.run, ended, Wait.takenAfter, Wait.polls]
  | done, v :: todo, rows, taken, polls => by
    have hv := reaches_value delay v (⟨shape, done, todo⟩ :: rows) taken polls
    refine .head rfl (hv.trans ?_)
    rw [Value.waitsAll]
    cases hfault : (Wait.run taken v.waits).2 with
    | some e =>
      rw [Wait.run_append_of_fault hfault, hfault]
      exact .single rfl
    | none =>
      obtain ⟨hcome, hvisited⟩ := Wait.allCome_of_run hfault
      have htodo := reaches_row delay shape (done ++ [v.settled]) todo rows
        (Wait.takenAfter taken v.waits) (polls ++ Wait.polls delay v.waits)
      rw [hvisited, Wait.run_append_of_allCome hcome, Wait.takenAfter_append, polls_append,
        ← List.append_assoc, Value.settledAll]
      rw [List.append_assoc done, List.singleton_append] at htodo
      exact .head rfl htodo

end

/-- From the one state the settler comes to the other in the end, whatever state it is in before,
and what it has polled by then are the first of the polls at the end. -/
structure EndsIn (delay : Nat → Nat) (c e : Settler) : Prop where
  reaches : Reaches delay c e
  final : e.step? delay = none
  onTheWay : ∀ d, Reaches delay c d → Reaches delay d e ∧ d.polls <+: e.polls

theorem endsIn_of_reaches (h : Reaches delay c e) (hfinal : e.step? delay = none) :
    EndsIn delay c e := by
  refine ⟨h, hfinal, fun d hd => ?_⟩
  have hrest := reaches_of_reaches h hfinal hd
  exact ⟨hrest, polls_reaches hrest⟩

end Settler

namespace TemplateResult

/-- Settling waits for the pending values of a template in the order of the source, each once the
one before it was ready, up to the first that fails or has been waited for before. When there is
none, the result is the same but for the values that were pending. -/
theorem settle_in_order (r : TemplateResult) (s : Settling) :
    (∃! out : List Wait × Option ResolveError,
      Wait.Comes s.taken (Value.waitsAll r.values) out.1 out.2) ∧
    ∀ visited fault, Wait.Comes s.taken (Value.waitsAll r.values) visited fault →
      r.settle s =
        (Wait.answer ⟨r.template, r.values.map Value.settled⟩ fault, s.after visited) ∧
      ∀ delay : Nat → Nat,
        Settler.EndsIn delay (Settler.start s.taken (.template r.template r.values))
          (Settler.ended (.template r.template (r.values.map Value.settled)) fault []
            (Wait.takenAfter s.taken visited) (Wait.polls delay visited)) := by
  refine ⟨Wait.existsUnique_comes _ _, fun visited fault hcomes => ?_⟩
  have hrun : Wait.run s.taken (Value.waitsAll r.values) = (visited, fault) :=
    Wait.comes_iff.mp hcomes
  constructor
  · rw [settle, Value.settleAll_eq, hrun, Value.settledAll_eq_map]
    cases fault <;> rfl
  · intro delay
    have hreaches := Settler.reaches_value delay (.template r.template r.values) [] s.taken []
    rw [Value.waits, hrun, Value.settled, Value.settledAll_eq_map, List.nil_append] at hreaches
    exact Settler.endsIn_of_reaches hreaches (Settler.step?_ended _ _ _ _)

/-- A list of items one of which brings another one to wait for, and one that fails behind it. -/
def gatheredNews : TemplateResult :=
  .ofFragments ["<ul>".toList, "</ul><p>".toList, "</p>".toList]
    [.list [.string "news".toList, .pending 7 (some "items".toList) (.ok (.list [.bool true,
      .pending 9 none (.ok .null)]))], .pending 8 none (.error "offline".toList)]

theorem settle_in_order_gatheredNews :
    Wait.Comes [] (Value.waitsAll gatheredNews.values)
        [⟨7, some "items".toList, none⟩, ⟨9, none, none⟩, ⟨8, none, some "offline".toList⟩]
        (some (.pendingFailed "offline".toList)) ∧
      gatheredNews.settle {} =
        (.error (.pendingFailed "offline".toList), ⟨[8, 9, 7], ["items".toList]⟩) ∧
      ∃ e, Settler.EndsIn (fun id => id - 7)
          (Settler.start [] (.template gatheredNews.template gatheredNews.values)) e ∧
        e.polls = [⟨7, true⟩, ⟨9, false⟩, ⟨9, false⟩, ⟨9, true⟩, ⟨8, false⟩, ⟨8, true⟩] := by
  have hcomes : Wait.Comes [] (Value.waitsAll gatheredNews.values)
      [⟨7, some "items".toList, none⟩, ⟨9, none, none⟩, ⟨8, none, some "offline".toList⟩]
      (some (.pendingFailed "offline".toList)) := Wait.comes_iff.mpr rfl
  obtain ⟨hsettle, hends⟩ := (settle_in_order gatheredNews {}).2 _ _ hcomes
  exact ⟨hcomes, hsettle, _, hends fun id => id - 7, rfl⟩

end TemplateResult

end LiveMarkup
