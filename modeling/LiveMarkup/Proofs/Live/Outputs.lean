import LiveMarkup.Proofs.Live.Coalescing
import LiveMarkup.Proofs.Live.Records

/-!
# Outputs

The output of an element is the markup of its latest pass that came to some. A pass that fails gives
one notice in place of markup, and a pass that is skipped gives nothing; in both cases the element
is left so that the next write makes it wait for a pass again. While an element is detached no pass
of it starts. Renders that a program asks for are counted like passes, also then, but they leave the
output alone (`Run.outputs`).
-/

namespace LiveMarkup

variable {H : Type}

namespace World

variable {w w' : World H} {ws : Nat → World H} {n m l a b i j : Nat} {purpose : Purpose H}
  {markup markup' : Except ResolveError Text} {output output' : Text} {e : ResolveError}

/-! ## Ends of renders -/

/-- A render of element `i` for some purpose ends and has come to some markup. -/
inductive Ends (i : Nat) (purpose : Purpose H) (markup : Except ResolveError Text)
    (w w' : World H) : Prop
  | intro {result : TemplateResult} {computed : Keyed Json} {cursor : Nat}
    {stack : List (Activity H)} {x : Instance H}
    (top : w.stack = .render i (.finish result) computed cursor purpose :: stack)
    (found : w.instances[i]? = some x) (resolved : result.resolve w.config = markup)
    (step : w.step? = some w')

/-- A render of element `i` that a program has asked for ends. -/
def EndsQuery (i : Nat) (w w' : World H) : Prop :=
  ∃ next keep markup, Ends i (.query next keep) markup w w'

/-- A pass of element `i` ends in move `m` and has come to some markup. -/
def Succeeds (ws : Nat → World H) (i m : Nat) : Prop :=
  ∃ output, Ends i .pass (.ok output) (ws m) (ws (m + 1))

/-- The output is the markup of the latest pass of element `i` before move `m` that came to some;
it is empty if there was none. -/
def LatestOutput (ws : Nat → World H) (i m : Nat) (output : Text) : Prop :=
  (∃ a, IsLast (Succeeds ws i) m a ∧ Ends i .pass (.ok output) (ws a) (ws (a + 1))) ∨
    output = [] ∧ ∀ l < m, ¬Succeeds ws i l

theorem Ends.record_eq (ends : Ends i purpose markup w w') :
    w'.record i = (w.record i).ended purpose markup := by
  obtain ⟨top, found, rfl, step⟩ := ends
  exact (record_finish top found step i).trans (if_pos rfl)

theorem Ends.inPass (ends : Ends i .pass markup w w') : w.inPass i = true := by
  obtain ⟨top, -, -, -⟩ := ends
  rw [World.inPass, top, List.any_cons]
  simp [Activity.isPass]

/-- A pass that fails gives one notice, and one that does not gives none. -/
theorem Ends.notices_eq (ends : Ends i purpose markup w w') :
    ∃ x, w.instances[i]? = some x ∧
      w'.notices = w.notices ++ purpose.endNotices x.element.name markup := by
  obtain ⟨top, found, rfl, step⟩ := ends
  exact ⟨_, found, notices_finish top found step⟩

/-- A render that a program has asked for is counted. -/
theorem EndsQuery.record_eq (ends : EndsQuery i w w') :
    w'.record i = { w.record i with renders := (w.record i).renders + 1 } := by
  obtain ⟨next, keep, markup, ends⟩ := ends
  exact ends.record_eq

/-- Only the ends of renders leave an output and count. -/
theorem kept_or_ends (next : Next w w') (i : Nat) :
    ((w'.record i).output = (w.record i).output ∧ (w'.record i).renders = (w.record i).renders) ∨
      ∃ purpose markup, Ends i purpose markup w w' := by
  cases recorded next with
  | keeps same =>
    rw [same.record]
    exact .inl ⟨rfl, rfl⟩
  | hook top found ready step =>
    rw [record_hook top found ready step]
    split
    · exact .inl ⟨rfl, rfl⟩
    · exact .inl ⟨rfl, rfl⟩
  | @finish j cursor result computed purpose stack x top found step =>
    by_cases here : j = i
    · subst here
      exact .inr ⟨purpose, _, top, found, rfl, step⟩
    · rw [record_finish top found step, if_neg here]
      exact .inl ⟨rfl, rfl⟩

/-- Only passes that fail are told of as such. -/
theorem failures_eq_or_ends (next : Next w w') :
    w'.failures = w.failures ∨ ∃ j e, Ends j .pass (.error e) w w' := by
  cases recorded next with
  | keeps same => exact .inl same.failures
  | hook top found ready step => exact .inl (failures_hook top found ready step)
  | @finish j cursor result computed purpose stack x top found step =>
    have notices := notices_finish top found step
    cases purpose with
    | query next keep =>
      rw [failures, notices]
      exact .inl (congrArg _ (List.append_nil _))
    | pass =>
      cases resolved : result.resolve w.config with
      | error e => exact .inr ⟨j, e, top, found, resolved, step⟩
      | ok output =>
        rw [failures, notices, resolved]
        exact .inl (congrArg _ (List.append_nil _))

/-! ## The latest output -/

/-- What is left is the markup of a pass that came to some. -/
theorem output_eq_or_ends (next : Next w w') (i : Nat) :
    (w'.record i).output = (w.record i).output ∧
        (∀ output, ¬Ends i .pass (.ok output) w w') ∨
      Ends i .pass (.ok (w'.record i).output) w w' := by
  by_cases succeeds : ∃ output, Ends i .pass (.ok output) w w'
  · obtain ⟨output, ends⟩ := succeeds
    have left : (w'.record i).output = output := by
      rw [ends.record_eq]
      rfl
    exact .inr (left ▸ ends)
  · refine .inl ⟨?_, fun output ends => succeeds ⟨output, ends⟩⟩
    obtain ⟨same, -⟩ | ⟨purpose, markup, ends⟩ := kept_or_ends next i
    · exact same
    · rw [ends.record_eq]
      cases purpose with
      | query next keep => rfl
      | pass =>
        cases markup with
        | error e => rfl
        | ok output => exact absurd ⟨output, ends⟩ succeeds

theorem LatestOutput.next (latest : LatestOutput ws i m ((ws m).record i).output)
    (next : Next (ws m) (ws (m + 1))) :
    LatestOutput ws i (m + 1) ((ws (m + 1)).record i).output := by
  obtain ⟨same, quiet⟩ | ends := output_eq_or_ends next i
  · have none : ¬Succeeds ws i m := fun ⟨output, ends⟩ => quiet output ends
    rw [same]
    obtain ⟨a, isLast, ends⟩ | ⟨empty, before⟩ := latest
    · exact .inl ⟨a, isLast.next_of_not none, ends⟩
    · refine .inr ⟨empty, fun l upper => ?_⟩
      obtain sooner | rfl := Nat.lt_succ_iff_lt_or_eq.mp upper
      · exact before l sooner
      · exact none
  · exact .inl ⟨m, .next ⟨_, ends⟩, ends⟩

theorem Run.latestOutput (run : Run ws n) (empty : ((ws 0).record i).output = []) (le : m ≤ n) :
    LatestOutput ws i m ((ws m).record i).output := by
  induction m with
  | zero => exact .inr ⟨empty, fun l lt => absurd lt (Nat.not_lt_zero l)⟩
  | succ m ih => exact (ih (Nat.le_of_succ_le le)).next (run.next m le)

/-! ## Detached elements -/

/-- No pass is under way unless one has started. -/
theorem Reachable.inPass_next (reached : Reachable w) (next : Next w w')
    (outside : w.inPass i = false) (quiet : ¬StartsPass i w w') : w'.inPass i = false := by
  have none : ¬0 < (w.standing i).passes := by rw [passes_pos, outside]; exact Bool.false_ne_true
  rw [← Bool.not_eq_true, ← passes_pos]
  cases reached.turn next i with
  | keeps same => rw [same]; exact none
  | asks before after => rw [after]; exact Nat.lt_irrefl 0
  | skips gone before after => rw [after]; exact Nat.lt_irrefl 0
  | begins starts before after => exact absurd starts quiet
  | ends before after => rw [after]; exact Nat.lt_irrefl 0

/-- Of the moves from `a` on and before `b`, these many end a render of element `i` that a program
has asked for. -/
inductive QueriesEnd (ws : Nat → World H) (i a : Nat) : Nat → Nat → Prop
  | none : QueriesEnd ws i a a 0
  | query {b count : Nat} (before : QueriesEnd ws i a b count)
    (ends : EndsQuery i (ws b) (ws (b + 1))) : QueriesEnd ws i a (b + 1) (count + 1)
  | other {b count : Nat} (before : QueriesEnd ws i a b count)
    (quiet : ¬EndsQuery i (ws b) (ws (b + 1))) : QueriesEnd ws i a (b + 1) count

/-- An element that is detached outside its passes is left as it is, but for the count of the
renders that programs ask for. -/
theorem Run.detached (run : Run ws n) (le : a ≤ b) (within : b ≤ n)
    (outside : (ws a).inPass i = false)
    (gone : ∀ k, a ≤ k → k < b → (ws k).isConnected i = false) :
    (∀ k, a ≤ k → k < b → ¬StartsPass i (ws k) (ws (k + 1))) ∧ (ws b).inPass i = false ∧
      ((ws b).record i).output = ((ws a).record i).output ∧
      ∃ count, QueriesEnd ws i a b count ∧
        ((ws b).record i).renders = ((ws a).record i).renders + count := by
  induction le with
  | refl =>
    exact ⟨fun k lower upper => absurd upper (Nat.not_lt.mpr lower), outside, rfl, 0, .none, rfl⟩
  | @step b le ih =>
    obtain ⟨quiet, still, output, count, counted, renders⟩ :=
      ih (Nat.le_of_succ_le within) fun k lower upper => gone k lower (Nat.lt_succ_of_lt upper)
    have next := run.next b within
    have reached := run.reachable (Nat.le_of_succ_le within)
    have noPass : ¬StartsPass i (ws b) (ws (b + 1)) := by
      rw [reached.startsPass_iff next, gone b le (Nat.lt_succ_self b)]
      exact fun both => Bool.false_ne_true both.2
    refine ⟨fun k lower upper => ?_, reached.inPass_next next still noPass, ?_⟩
    · obtain sooner | rfl := Nat.lt_succ_iff_lt_or_eq.mp upper
      · exact quiet k lower sooner
      · exact noPass
    · by_cases query : EndsQuery i (ws b) (ws (b + 1))
      · refine ⟨?_, count + 1, .query counted query, ?_⟩
        · rw [query.record_eq]
          exact output
        · rw [query.record_eq]
          exact congrArg (· + 1) renders
      · obtain ⟨sameOutput, sameRenders⟩ | ⟨purpose, markup, ends⟩ := kept_or_ends next i
        · exact ⟨sameOutput.trans output, count, .other counted query, sameRenders.trans renders⟩
        · cases purpose with
          | query next keep => exact absurd ⟨next, keep, markup, ends⟩ query
          | pass =>
            -- a pass that ends has been under way
            rw [ends.inPass] at still
            cases still

/-! ## Elements that are rendered -/

/-- A write to a connected element makes it wait for a pass, unless one is under way. -/
theorem Reachable.waits_of_writes (reached : Reachable w) (step : w.step? = some w')
    (writes : w.Writes i) (connected : w.isConnected i = true) (outside : w.inPass i = false) :
    i ∈ w'.renders.items := by
  rw [← waits_pos, standing_of_writes writes connected step, (reached.proper i).asked_waits,
    passes_pos, outside]
  exact Bool.false_ne_true

/-- The output of element `i`, and what is told of its passes. -/
structure Outputs (ws : Nat → World H) (n i : Nat) : Prop where
  /-- The output is the markup of the latest pass that came to some. -/
  latest : ∀ m ≤ n, LatestOutput ws i m ((ws m).record i).output
  /-- A pass that fails gives one notice, whatever the settings are. -/
  fails : ∀ m < n, ∀ e, Ends i .pass (.error e) (ws m) (ws (m + 1)) →
    ∃ x, (ws m).instances[i]? = some x ∧
      (ws (m + 1)).notices = (ws m).notices ++ [.renderFailed x.element.name e]
  /-- A pass that comes to some markup gives none. -/
  succeeds : ∀ m < n, ∀ output, Ends i .pass (.ok output) (ws m) (ws (m + 1)) →
    (ws (m + 1)).notices = (ws m).notices
  /-- Nothing else is told of as a pass that has failed. -/
  silent : ∀ m < n, (∀ j e, ¬Ends j .pass (.error e) (ws m) (ws (m + 1))) →
    (ws (m + 1)).failures = (ws m).failures
  /-- A render is counted when it ends. -/
  counts : ∀ m < n, ∀ purpose markup, Ends i purpose markup (ws m) (ws (m + 1)) →
    ((ws (m + 1)).record i).renders = ((ws m).record i).renders + 1
  /-- While the element is detached and no pass of it is under way, none starts, its output stays
  as it is, and only the renders that programs ask for are counted. -/
  detached : ∀ a b, a ≤ b → b ≤ n → (ws a).inPass i = false →
    (∀ k, a ≤ k → k < b → (ws k).isConnected i = false) →
      (∀ k, a ≤ k → k < b → ¬StartsPass i (ws k) (ws (k + 1))) ∧
        ((ws b).record i).output = ((ws a).record i).output ∧
        ∃ count, QueriesEnd ws i a b count ∧
          ((ws b).record i).renders = ((ws a).record i).renders + count
  /-- However the passes before have ended, a write makes the element wait for a pass. -/
  waits : ∀ m < n, (ws m).step? = some (ws (m + 1)) → (ws m).Writes i →
    (ws m).isConnected i = true → (ws m).inPass i = false → i ∈ (ws (m + 1)).renders.items

/-- Whatever is done in a run that begins before an element has any output, and however its passes
end. -/
theorem Run.outputs (run : Run ws n) (empty : ((ws 0).record i).output = []) :
    Outputs ws n i where
  latest m le := run.latestOutput empty le
  fails m lt e ends := ends.notices_eq
  succeeds m lt output ends := by
    obtain ⟨x, -, notices⟩ := ends.notices_eq
    exact notices.trans (List.append_nil _)
  silent m lt quiet := by
    obtain same | ⟨j, e, ends⟩ := failures_eq_or_ends (run.next m lt)
    · exact same
    · exact absurd ends (quiet j e)
  counts m lt purpose markup ends := by rw [ends.record_eq, Record.renders_ended]
  detached a b le within outside gone := by
    obtain ⟨quiet, -, output, renders⟩ := run.detached le within outside gone
    exact ⟨quiet, output, renders⟩
  waits m lt step writes connected outside :=
    (run.reachable (Nat.le_of_lt lt)).waits_of_writes step writes connected outside

/-- An element that has no markup when its number is two. -/
def moody : Element Unit where
  name := "x-moody".toList
  render := .hook (.useInt (.give (.int 1))) fun n =>
    .finish ⟨.ok (.static "fine".toList), if n.1 = 2 then [.null] else []⟩

/-- It has a pass, and one that fails when its number is changed. Then it is detached, its number is
changed again, the loop is driven, and it is rendered for the host. -/
def unsettled : World Unit :=
  hosting moody (.request 0 .connect (.drive .untilIdle fun _ =>
    .revise 0 0 (.int fun n => .give (.int (n + 1))) (.drive .untilIdle fun _ =>
      .request 0 .disconnect (.revise 0 0 (.int fun n => .give (.int (n + 1)))
        (.drive .untilIdle fun _ => .render 0 fun _ => .skip)))))

theorem outputs_unsettled :
    Outputs (unsettled.run ·) 52 0 ∧ ((unsettled.run 52).record 0).output = "fine".toList ∧
      (unsettled.run 52).failures.length = 1 ∧ ((unsettled.run 52).record 0).renders = 3 := by
  have busy : ∀ k < 52, (unsettled.run k).stack ≠ [] := by decide +kernel
  refine ⟨Run.outputs ((reachable_hosting _ _).runOn busy) rfl, ?_⟩
  decide +kernel

/-- A render that a program asks for is counted while the element is detached. -/
theorem not_renders_kept :
    ¬∀ (ws : Nat → World Unit) (n i : Nat), Run ws n → (ws 0).inPass i = false →
      (∀ k < n, (ws k).isConnected i = false) →
        ((ws n).record i).renders = ((ws 0).record i).renders := by
  intro claimed
  let w : World Unit := hosting counter (.render 0 fun _ => .skip)
  have busy : ∀ k < 3, (w.run k).stack ≠ [] := by decide
  have same := claimed (w.run ·) 3 0 ((reachable_hosting _ _).runOn busy) (by decide) (by decide)
  exact absurd same (by decide)

end World

end LiveMarkup
