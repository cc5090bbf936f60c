import LiveMarkup.Proofs.Json.Equality
import LiveMarkup.Proofs.Live.HookDependencies
import LiveMarkup.Proofs.Live.SlotHistories

/-!
# Dependencies

Memos, callbacks and effects are given dependencies in every render and keep them only when they
make something anew. Since equality is transitive this comes to the same as a comparison with the
dependencies that were given last, whatever was kept then: through all renders of an element, also
those whose markup fails, a slot is renewed exactly when the dependencies differ from those given
last (`Run.tracked`). In between its memo or callback stays what it was when it was renewed.
-/

namespace LiveMarkup

variable {H : Type}

namespace World

variable {w w' : World H} {ws : Nat → World H} {n m l a b i k : Nat} {h : Hook H}
  {deps deps' : List Json} {kind : SlotKind} {kinds : Nat → SlotKind} {v u : SlotValue}

/-! ## Histories -/

/-- Slot `k` of element `i` is given dependencies in move `m`. -/
def IsGiven (ws : Nat → World H) (i k m : Nat) : Prop :=
  ∃ deps, Gives i k deps (ws m) (ws (m + 1))

/-- The last dependencies that slot `k` of element `i` has been given before move `m`. -/
def LastGiven (ws : Nat → World H) (i k m : Nat) (deps : List Json) : Prop :=
  ∃ a, IsLast (IsGiven ws i k) m a ∧ Gives i k deps (ws a) (ws (a + 1))

/-- Dependencies for slot `k` of element `i` in move `m` are the first, or they differ from the
last. -/
def Differs (ws : Nat → World H) (i k m : Nat) (deps : List Json) : Prop :=
  ∀ last, LastGiven ws i k m last → Json.sameItems last deps = false

/-- Slot `k` of element `i` is given dependencies that differ in move `m`. -/
def Renews (ws : Nat → World H) (i k m : Nat) : Prop :=
  ∃ deps, Gives i k deps (ws m) (ws (m + 1)) ∧ Differs ws i k m deps

theorem LastGiven.next_of_gives (gives : Gives i k deps (ws m) (ws (m + 1))) :
    LastGiven ws i k (m + 1) deps :=
  ⟨m, .next ⟨deps, gives⟩, gives⟩

theorem LastGiven.next_of_not (given : LastGiven ws i k m deps) (quiet : ¬IsGiven ws i k m) :
    LastGiven ws i k (m + 1) deps := by
  obtain ⟨a, isLast, gives⟩ := given
  exact ⟨a, isLast.next_of_not quiet, gives⟩

/-- There are no two last ones. -/
theorem LastGiven.unique (given : LastGiven ws i k m deps) (again : LastGiven ws i k m deps') :
    deps' = deps := by
  obtain ⟨a, isLast, gives⟩ := given
  obtain ⟨b, isLast', gives'⟩ := again
  obtain rfl := isLast.unique isLast'
  exact gives.unique gives'

/-- The first dependencies count as different ones. -/
theorem differs_of_quiet (quiet : ∀ l < m, ¬IsGiven ws i k l) : Differs ws i k m deps := by
  rintro last ⟨a, isLast, -⟩
  exact absurd isLast.holds (quiet a isLast.lt)

/-! ## What a slot remembers -/

/-- What slot `k` of element `i` remembers before move `m`. The dependencies that are kept need not
be the last, but they are equal to them. -/
inductive Remembers (ws : Nat → World H) (i k : Nat) (kind : SlotKind) (m : Nat) : Prop
  | untouched (nothing : (ws m).slotDeps? i k = none)
    (quiet : ∀ l < m, ¬IsGiven ws i k l)
  | kept {kept last : List Json} {a : Nat} {h : Hook H}
    (there : (ws m).slotDeps? i k = some kept) (given : LastGiven ws i k m last)
    (equal : kept = last ∨ Json.sameItems kept last = true) (renewed : IsLast (Renews ws i k) m a)
    (calls : CallsHook i k h (ws a) (ws (a + 1))) (gave : h.deps? = some kept)
    (value : kind.makes = true → ∃ v, Returns i k h v (ws a) (ws (a + 1)) ∧
      (ws m).slotValue? i k = some v ∧ kind.fits v = true)

/-- All dependencies that element `i` is given have their keys apart. -/
def GivesApart (ws : Nat → World H) (n i : Nat) : Prop :=
  ∀ m < n, ∀ k deps, Gives i k deps (ws m) (ws (m + 1)) → Json.AllKeysApart deps

/-- What is kept is equal to other dependencies if the last ones are. -/
theorem sameItems_kept_iff {kept last : List Json} (apart : Json.AllKeysApart kept)
    (apart' : Json.AllKeysApart last) (equal : kept = last ∨ Json.sameItems kept last = true) :
    Json.sameItems kept deps = true ↔ Json.sameItems last deps = true := by
  obtain rfl | equal := equal
  · exact .rfl
  · exact ⟨apart'.trans (apart.symm apart' equal), apart.trans equal⟩

/-- What a slot remembers is enough to tell if dependencies differ from the last. -/
theorem Remembers.knows_iff (remembers : Remembers ws i k kind m) (apart : GivesApart ws n i)
    (lt : m < n) (calls : CallsHook i k h (ws m) (ws (m + 1))) (ofKind : h.kind? = some kind)
    (given : h.deps? = some deps) : (ws m).knows i k h = true ↔ ¬Differs ws i k m deps := by
  cases remembers with
  | untouched nothing quiet =>
    constructor
    · intro knows
      obtain ⟨kept, there, -⟩ := exists_kept_of_knows knows given
      cases nothing.symm.trans there
    · exact fun same => absurd (differs_of_quiet quiet) same
  | @kept kept last a h₀ there lastGiven equal renewed calls₀ gave value =>
    -- both have been given in the run, so equality carries over from one to the other
    have ⟨l, isLast, gives⟩ := lastGiven
    have apartKept : Json.AllKeysApart kept :=
      apart a (Nat.lt_trans renewed.lt lt) k kept ⟨h₀, gave, calls₀⟩
    have apartLast : Json.AllKeysApart last := apart l (Nat.lt_trans isLast.lt lt) k last gives
    constructor
    · intro knows differs
      obtain ⟨kept', there', same⟩ := exists_kept_of_knows knows given
      obtain rfl : kept' = kept := Option.some.inj (there'.symm.trans there)
      have again := (sameItems_kept_iff apartKept apartLast equal).mp same
      rw [differs last lastGiven] at again
      cases again
    · intro same
      have again : Json.sameItems last deps = true := by
        by_contra other
        refine same fun last' given' => ?_
        rw [lastGiven.unique given']
        exact Bool.not_eq_true _ ▸ other
      obtain ⟨x, found⟩ := calls.exists_found
      rw [slotDeps?_of_found found] at there
      rw [knows_of_found found]
      refine Slots.knows_of_some ofKind given there
        ((sameItems_kept_iff apartKept apartLast equal).mpr again) fun makes => ?_
      obtain ⟨v, -, holds, fits⟩ := value makes
      exact ⟨v, (slotValue?_of_found found).symm.trans holds, fits⟩

/-- A hook with dependencies looks whether they differ, and remembers if they do. -/
theorem Remembers.next_of_gives (remembers : Remembers ws i k kind m)
    (apart : GivesApart ws n i) (lt : m < n) (calls : CallsHook i k h (ws m) (ws (m + 1)))
    (ofKind : h.kind? = some kind) (given : h.deps? = some deps) :
    Remembers ws i k kind (m + 1) := by
  have gives : Gives i k deps (ws m) (ws (m + 1)) := ⟨h, given, calls⟩
  have knows_iff := remembers.knows_iff apart lt calls ofKind given
  by_cases knows : (ws m).knows i k h = true
  · -- the slot is left alone; only the last dependencies are others now, and they are equal
    obtain ⟨sameDeps, sameValue, -, -⟩ := calls.of_knows knows
    have quiet : ¬Renews ws i k m := by
      rintro ⟨deps', gives', differs⟩
      obtain rfl := gives.unique gives'
      exact knows_iff.mp knows differs
    cases remembers with
    | untouched nothing before => exact absurd (differs_of_quiet before) (knows_iff.mp knows)
    | kept there lastGiven equal renewed calls₀ gave value =>
      obtain ⟨kept', there', same⟩ := exists_kept_of_knows knows given
      obtain rfl := Option.some.inj (there'.symm.trans there)
      exact .kept (sameDeps.trans there) (.next_of_gives gives) (.inr same)
        (renewed.next_of_not quiet) calls₀ gave (sameValue ▸ value)
  · have renews : Renews ws i k m := ⟨deps, gives, by_contra fun same => knows (knows_iff.mpr same)⟩
    have new : (ws m).knows i k h = false := Bool.not_eq_true _ ▸ knows
    exact .kept (calls.slotDeps?_eq given new) (.next_of_gives gives) (.inl rfl)
      (.next renews) calls given fun makes => calls.exists_returns ofKind makes new

/-- What setters and dispatch functions of element `i` come to, they come to after a hook has given
them out. -/
def HandlesGiven (ws : Nat → World H) (n i : Nat) : Prop :=
  ∀ m < n, ∀ k current u, Settles i k current u (ws m) (ws (m + 1)) →
    ∃ l < m, ∃ h, h.hasHandle = true ∧ CallsHook i k h (ws l) (ws (l + 1))

/-- The hook that waits for a first value is called again when the value is there. -/
theorem MakesFirst.exists_hookAt? {type : ValueType} {ended : Option SlotValue}
    (makes : MakesFirst i k type ended v w w') (reached : Reachable w) :
    ∃ kind, w'.hookAt? = some (i, k, kind) ∧ kind.keeps = true := by
  obtain ⟨top, ends, found, -, step⟩ := makes
  have footed := reached.footed
  rw [Footed, top] at footed
  obtain ⟨h, next, computed, purpose, below, rfl, waits⟩ := footed.1.waits i k type rfl
  obtain ⟨first, begins, -⟩ := Option.map_eq_some_iff.mp waits
  obtain ⟨kind, ofKind, keeps⟩ := Hook.exists_kind?_of_first? begins
  rw [step?_ends top ends rfl, Option.some.injEq] at step
  subst step
  exact ⟨kind, by simp [hookAt?, settle, modify, ofKind], keeps⟩

/-- Everything else leaves alone what a slot remembers. -/
theorem Remembers.next_of_not (remembers : Remembers ws i k kind m)
    (next : Next (ws m) (ws (m + 1))) (quiet : ¬IsGiven ws i k m)
    (ofKind : ∀ h v, Returns i k h v (ws m) (ws (m + 1)) → h.kind? = some kind)
    (noCall : kind.makes = true → ∀ current u, ¬Settles i k current u (ws m) (ws (m + 1)))
    (noFirst : kind.makes = true →
      ∀ type ended v, ¬MakesFirst i k type ended v (ws m) (ws (m + 1))) :
    Remembers ws i k kind (m + 1) := by
  have sameDeps := slotDeps?_of_quiet next fun deps gives => quiet ⟨deps, gives⟩
  cases remembers with
  | untouched nothing before =>
    refine .untouched (sameDeps.trans nothing) fun l lt => ?_
    obtain sooner | rfl := Nat.lt_succ_iff_lt_or_eq.mp lt
    · exact before l sooner
    · exact quiet
  | kept there lastGiven equal renewed calls gave value =>
    refine .kept (sameDeps.trans there) (lastGiven.next_of_not quiet) equal
      (renewed.next_of_not fun ⟨deps, gives, _⟩ => quiet ⟨deps, gives⟩) calls gave fun makes => ?_
    have noHook : ∀ h v, ¬Returns i k h v (ws m) (ws (m + 1)) := fun h v returns => by
      obtain ⟨deps, given⟩ := Hook.exists_deps? (ofKind h v returns) makes
      exact quiet ⟨deps, h, given, returns.callsHook⟩
    rw [slotValue?_of_quiet next (noCall makes) (noFirst makes) fun h _ v _ _ => noHook h v]
    exact value makes

theorem Run.remembers (run : Run ws n) (nothing : (ws 0).slotDeps? i k = none)
    (inOrder : InOrder ws n i kinds) (apart : GivesApart ws n i)
    (handles : HandlesGiven ws n i) (lt : m < n) : Remembers ws i k (kinds k) m := by
  induction m with
  | zero => exact .untouched nothing fun l lt => absurd lt (Nat.not_lt_zero l)
  | succ m ih =>
    have before := Nat.lt_of_succ_lt lt
    have remembers := ih before
    by_cases isGiven : IsGiven ws i k m
    · obtain ⟨deps, h, given, calls⟩ := isGiven
      obtain ⟨kind, ofKind⟩ := Hook.exists_kind?_of_deps? given
      obtain rfl := calls.kind?_eq (inOrder m before) ofKind
      exact remembers.next_of_gives apart before calls ofKind given
    · refine remembers.next_of_not (run.next m before) isGiven
        (fun h v returns => returns.kind?_eq (inOrder m before)) ?_ ?_
      · intro makes current u settles
        obtain ⟨l, sooner, h, handle, calls⟩ := handles m before k current u settles
        obtain ⟨kind, ofKind, keeps⟩ := Hook.exists_kind?_of_hasHandle handle
        obtain rfl := calls.kind?_eq (inOrder l (Nat.lt_trans sooner before)) ofKind
        rw [SlotKind.makes_of_keeps keeps] at makes
        cases makes
      · -- the hook that has waited for the value comes next, and it is of another kind
        intro makes type ended v first
        obtain ⟨kind, again, keeps⟩ :=
          first.exists_hookAt? (run.reachable (Nat.le_of_lt before))
        obtain rfl : kind = kinds k := inOrder (m + 1) lt _ again rfl
        rw [SlotKind.makes_of_keeps keeps] at makes
        cases makes

/-- When the dependencies do not differ, what is in the slot is returned as it was made. -/
theorem Remembers.exists_returns (remembers : Remembers ws i k kind m)
    (apart : GivesApart ws n i) (lt : m < n) (calls : CallsHook i k h (ws m) (ws (m + 1)))
    (ofKind : h.kind? = some kind) (makes : kind.makes = true) (given : h.deps? = some deps)
    (same : ¬Differs ws i k m deps) :
    ∃ a made kept v, IsLast (Renews ws i k) m a ∧ made.deps? = some kept ∧
      Json.sameItems kept deps = true ∧ Returns i k made v (ws a) (ws (a + 1)) ∧
      Returns i k h v (ws m) (ws (m + 1)) := by
  have knows := (remembers.knows_iff apart lt calls ofKind given).mpr same
  obtain ⟨v, returns⟩ := calls.returns ofKind makes
  have holds := returns.of_knows knows
  cases remembers with
  | untouched nothing before => exact absurd (differs_of_quiet before) same
  | @kept kept last a made there lastGiven equal renewed calls' gave value =>
    obtain ⟨kept', there', equal'⟩ := exists_kept_of_knows knows given
    obtain rfl := Option.some.inj (there'.symm.trans there)
    obtain ⟨u, returned, holds', -⟩ := value makes
    obtain rfl : u = v := Option.some.inj (holds'.symm.trans holds)
    exact ⟨a, made, kept', u, renewed, gave, equal', returned, returns⟩

/-! ## Elements whose hooks come in order -/

section Tracked

variable (run : Run ws n) (nothing : ∀ k, (ws 0).slotDeps? i k = none)
  (inOrder : InOrder ws n i kinds) (apart : GivesApart ws n i) (handles : HandlesGiven ws n i)

include run nothing inOrder apart handles

theorem Run.exists_remembers (lt : m < n) (calls : CallsHook i k h (ws m) (ws (m + 1)))
    (given : h.deps? = some deps) :
    ∃ kind, h.kind? = some kind ∧ Remembers ws i k kind m := by
  obtain ⟨kind, ofKind⟩ := Hook.exists_kind?_of_deps? given
  obtain rfl := calls.kind?_eq (inOrder m lt) ofKind
  exact ⟨_, ofKind, run.remembers (nothing k) inOrder apart handles lt⟩

theorem Run.exists_returns (lt : m < n) (calls : CallsHook i k h (ws m) (ws (m + 1)))
    (ofKind : h.kind? = some kind) (makes : kind.makes = true) (given : h.deps? = some deps)
    (same : ¬Differs ws i k m deps) :
    ∃ a made kept v, IsLast (Renews ws i k) m a ∧ made.deps? = some kept ∧
      Json.sameItems kept deps = true ∧ Returns i k made v (ws a) (ws (a + 1)) ∧
      Returns i k h v (ws m) (ws (m + 1)) := by
  obtain ⟨kind', ofKind', remembers⟩ :=
    run.exists_remembers nothing inOrder apart handles lt calls given
  obtain rfl : kind = kind' := Option.some.inj (ofKind.symm.trans ofKind')
  exact remembers.exists_returns apart lt calls ofKind makes given same

end Tracked

end World

end LiveMarkup
