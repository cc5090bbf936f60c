import LiveMarkup.Template.Cache
import Mathlib.Data.Finset.Card
import Mathlib.Data.Finset.Dedup

/-!
# Fetches from a cache

A cache is asked for one list of fragments after the other. What it holds is at any time what the
calls so far have returned (`Reflects.held`). So a call returns what parsing its list gives, and the
same template whenever it is asked for that list again; and only a list for which no call has
returned a template yet is parsed (`fetch_transparent`).
-/

namespace LiveMarkup

namespace TemplateCache

variable {cache after : TemplateCache} {list : StaticFragments} {key : Nat × Nat}
  {t : CachedTemplate} {outcome : Except TemplateError CachedTemplate} {noted : List (List Text)}

/-! ## One call -/

/-- Parse fragments and note that they were parsed. -/
def noting (fragments : List Text) :
    StateM (List (List Text)) (Except TemplateError Template) := do
  modify (· ++ [fragments])
  return Template.ofFragments fragments

/-- The fragments that are parsed when a list is fetched. -/
def parsed (cache : TemplateCache) (list : StaticFragments) : List (List Text) :=
  ((cache.fetchBy noting list).run []).2

/-- What fetching a list comes to: the outcome, the cache afterwards and what is parsed. -/
inductive Fetches (cache : TemplateCache) (list : StaticFragments) :
    Except TemplateError CachedTemplate → TemplateCache → List (List Text) → Prop
  | hit {t : CachedTemplate} (there : cache.get? list.key = some t) :
    Fetches cache list (.ok t) cache []
  | refused {e : TemplateError} (absent : cache.get? list.key = none)
      (fails : Template.ofFragments list.fragments = .error e) :
    Fetches cache list (.error e) cache [list.fragments]
  | stored {template : Template} (absent : cache.get? list.key = none)
      (made : Template.ofFragments list.fragments = .ok template) :
    Fetches cache list (.ok ⟨cache.size, template⟩)
      ⟨(list.key, ⟨cache.size, template⟩) :: cache.entries⟩ [list.fragments]

theorem noting_eq (fragments : List Text) :
    noting fragments = fun noted => (Template.ofFragments fragments, noted ++ [fragments]) := rfl

/-- Noting what is parsed changes nothing else. -/
theorem run_noting (cache : TemplateCache) (list : StaticFragments) :
    ((cache.fetchBy noting list).run []).1 = cache.fetch list := by
  unfold fetch fetchBy
  rw [noting_eq]
  beta_reduce
  cases cache.get? list.key with
  | some t => rfl
  | none =>
    cases Template.ofFragments list.fragments with
    | error e => rfl
    | ok template => rfl

theorem fetches (cache : TemplateCache) (list : StaticFragments) :
    cache.Fetches list (cache.fetch list).1 (cache.fetch list).2 (cache.parsed list) := by
  rw [← run_noting]
  unfold parsed fetchBy
  rw [noting_eq]
  cases there : cache.get? list.key with
  | some t => exact .hit there
  | none =>
    cases made : Template.ofFragments list.fragments with
    | error e => exact .refused there made
    | ok template => exact .stored there made

theorem get?_cons (cache : TemplateCache) (key other : Nat × Nat) (t : CachedTemplate) :
    get? ⟨(key, t) :: cache.entries⟩ other = if other = key then some t else cache.get? other := by
  unfold get?
  rw [List.lookup_cons]
  by_cases same : other = key
  · rw [if_pos same, beq_iff_eq.mpr same]
  · rw [if_neg same, beq_eq_false_iff_ne.mpr same]

/-- Fetching adds what it returns and takes nothing away. -/
theorem Fetches.get?_eq_some_iff (fetched : cache.Fetches list outcome after noted) :
    after.get? key = some t ↔ cache.get? key = some t ∨ list.key = key ∧ outcome = .ok t := by
  cases fetched with
  | hit there =>
    refine ⟨Or.inl, fun either => either.elim id ?_⟩
    rintro ⟨rfl, returned⟩
    rw [there, Except.ok.inj returned]
  | refused absent fails => simp
  | stored absent made =>
    rw [get?_cons]
    by_cases same : key = list.key
    · simp [same, absent]
    · simp [same, Ne.symm same]

/-- A template in the cache is the one of its list when what is fetched is. -/
theorem Fetches.map_template (fetched : cache.Fetches list outcome after noted)
    (right : ∀ t, cache.get? list.key = some t →
      .ok t.template = Template.ofFragments list.fragments) :
    outcome.map CachedTemplate.template = Template.ofFragments list.fragments := by
  cases fetched with
  | hit there => exact right _ there
  | refused absent fails => exact fails.symm
  | stored absent made => exact made.symm

/-- Each template in the cache has a serial number of its own, below the size of the cache. -/
structure IsNumbered (cache : TemplateCache) : Prop where
  lt_size : ∀ key t, cache.get? key = some t → t.serial < cache.size
  key_eq : ∀ key other t u, cache.get? key = some t → cache.get? other = some u →
    t.serial = u.serial → key = other

theorem Fetches.isNumbered (fetched : cache.Fetches list outcome after noted)
    (numbered : cache.IsNumbered) : after.IsNumbered := by
  cases fetched with
  | hit there => exact numbered
  | refused absent fails => exact numbered
  | stored absent made =>
    constructor
    · intro key t there
      rw [get?_cons] at there
      split at there
      · rw [← Option.some.inj there]
        exact Nat.lt_succ_self _
      · exact Nat.lt_succ_of_lt (numbered.lt_size key t there)
    · intro key other t u there there' same
      rw [get?_cons] at there there'
      -- the new number is the size, which is above all that were given before
      split at there <;> split at there'
      · next key' other' => exact key'.trans other'.symm
      · have below := numbered.lt_size other u there'
        rw [← same, ← Option.some.inj there] at below
        exact absurd below (Nat.lt_irrefl _)
      · have below := numbered.lt_size key t there
        rw [same, ← Option.some.inj there'] at below
        exact absurd below (Nat.lt_irrefl _)
      · exact numbered.key_eq key other t u there there' same

/-! ## Calls one after the other -/

/-- A call of a cache. -/
structure Call where
  /-- What the cache was asked for. -/
  list : StaticFragments
  outcome : Except TemplateError CachedTemplate
  /-- The fragments that were parsed. -/
  parsed : List (List Text)
  /-- The cache afterwards. -/
  cache : TemplateCache

/-- The call that asks for a list. -/
def call (cache : TemplateCache) (list : StaticFragments) : Call :=
  ⟨list, (cache.fetch list).1, cache.parsed list, (cache.fetch list).2⟩

/-- The calls that ask for lists one after the other. -/
def calls (cache : TemplateCache) : List StaticFragments → List Call
  | [] => []
  | list :: lists => cache.call list :: (cache.fetch list).2.calls lists

theorem map_list_calls (cache : TemplateCache) (lists : List StaticFragments) :
    (cache.calls lists).map Call.list = lists := by
  induction lists generalizing cache with
  | nil => rfl
  | cons list lists ih => exact congrArg (list :: ·) (ih _)

/-- The call has returned a template. -/
def Call.succeeded (c : Call) : Bool := c.outcome.isOk

/-- Lists that have both place and length in common are the same. -/
def Apart (lists : List StaticFragments) : Prop :=
  ∀ a ∈ lists, ∀ b ∈ lists, a.place = b.place → a.fragments.length = b.fragments.length → a = b

instance (lists : List StaticFragments) : Decidable (Apart lists) :=
  inferInstanceAs (Decidable (∀ a ∈ lists, ∀ b ∈ lists, _))

/-- The lists for which calls have returned a template. -/
def served (calls : List Call) : Finset StaticFragments :=
  ((calls.filter Call.succeeded).map Call.list).toFinset

variable {past : List Call} {c : Call}

theorem Call.succeeded_ok : (Call.mk list (.ok t) noted cache).succeeded = true := rfl

theorem Call.succeeded_error {e : TemplateError} :
    (Call.mk list (.error e) noted cache).succeeded = false := rfl

theorem Call.succeeded_iff : c.succeeded = true ↔ ∃ t, c.outcome = .ok t := by
  unfold succeeded
  cases c.outcome with
  | error e => simp [Except.isOk, Except.toBool]
  | ok t => simp [Except.isOk, Except.toBool]

theorem mem_served : list ∈ served past ↔ ∃ c ∈ past, c.list = list ∧ ∃ t, c.outcome = .ok t := by
  simp only [served, List.mem_toFinset, List.mem_map, List.mem_filter, Call.succeeded_iff]
  exact ⟨fun ⟨c, ⟨mem, ok⟩, same⟩ => ⟨c, mem, same, ok⟩,
    fun ⟨c, mem, same, ok⟩ => ⟨c, ⟨mem, ok⟩, same⟩⟩

theorem served_snoc : served (past ++ [c]) =
    if c.succeeded then insert c.list (served past) else served past := by
  ext list
  cases ok : c.succeeded with
  | false => simp [served, ok]
  | true => simp [served, ok]

theorem Apart.eq {lists : List StaticFragments} {a b : StaticFragments} (apart : Apart lists)
    (mem : a ∈ lists) (mem' : b ∈ lists) (key : a.key = b.key) : a = b :=
  apart a mem b mem' (congrArg Prod.fst key) (congrArg Prod.snd key)

theorem Apart.mono {few lists : List StaticFragments} (apart : Apart lists)
    (sub : few ⊆ lists) : Apart few :=
  fun a mem b mem' => apart a (sub mem) b (sub mem')

/-! ## What a cache holds -/

/-- A cache after some calls. -/
structure Reflects (past : List Call) (cache : TemplateCache) : Prop where
  /-- It holds what the calls returned. -/
  held : ∀ key t, cache.get? key = some t ↔ ∃ c ∈ past, c.list.key = key ∧ c.outcome = .ok t
  outcome : ∀ c ∈ past,
    c.outcome.map CachedTemplate.template = Template.ofFragments c.list.fragments
  numbered : cache.IsNumbered
  size : cache.size = (served past).card

theorem Reflects.nil : Reflects [] {} where
  held key t := by simp [get?]
  outcome := by simp
  numbered := ⟨fun key t there => by simp [get?] at there,
    fun key other t u there => by simp [get?] at there⟩
  size := rfl

/-- What is in the cache for a list has been returned for this list. -/
theorem Reflects.exists_of_get? (reflects : Reflects past cache)
    (apart : Apart (past.map Call.list ++ [list])) (there : cache.get? list.key = some t) :
    ∃ c ∈ past, c.list = list ∧ c.outcome = .ok t := by
  obtain ⟨c, mem, key, returned⟩ := (reflects.held _ _).mp there
  have earlier : c.list ∈ past.map Call.list := List.mem_map_of_mem mem
  exact ⟨c, mem, apart.eq (List.mem_append_left _ earlier) List.mem_concat_self key, returned⟩

/-- A list has a template in the cache just when a call has returned one for it. -/
theorem Reflects.get?_ne_none_iff (reflects : Reflects past cache)
    (apart : Apart (past.map Call.list ++ [list])) :
    cache.get? list.key ≠ none ↔ list ∈ served past := by
  rw [Option.ne_none_iff_exists', mem_served]
  constructor
  · rintro ⟨t, there⟩
    obtain ⟨c, mem, same, returned⟩ := reflects.exists_of_get? apart there
    exact ⟨c, mem, same, t, returned⟩
  · rintro ⟨c, mem, same, t, returned⟩
    exact ⟨t, (reflects.held _ _).mpr ⟨c, mem, congrArg StaticFragments.key same, returned⟩⟩

/-- A call keeps the cache in accord with the calls. -/
theorem Reflects.snoc (reflects : Reflects past cache)
    (fetched : cache.Fetches list outcome after noted)
    (apart : Apart (past.map Call.list ++ [list])) :
    Reflects (past ++ [⟨list, outcome, noted, after⟩]) after where
  held key t := by
    rw [fetched.get?_eq_some_iff, reflects.held]
    simp [or_and_right, exists_or]
  outcome := by
    refine List.forall_mem_append.mpr ⟨reflects.outcome, List.forall_mem_singleton.mpr ?_⟩
    refine fetched.map_template fun t there => ?_
    obtain ⟨c, mem, same, returned⟩ := reflects.exists_of_get? apart there
    have right := reflects.outcome c mem
    rw [same, returned] at right
    exact right
  numbered := fetched.isNumbered reflects.numbered
  size := by
    have known := reflects.get?_ne_none_iff apart
    rw [served_snoc]
    cases fetched with
    | hit there =>
      have mem : list ∈ served past := known.mp (by simp [there])
      rw [Call.succeeded_ok, if_pos rfl, Finset.insert_eq_of_mem mem, reflects.size]
    | refused absent fails =>
      rw [Call.succeeded_error, if_neg Bool.false_ne_true, reflects.size]
    | stored absent made =>
      have new : list ∉ served past := fun mem => known.mpr mem absent
      rw [Call.succeeded_ok, if_pos rfl, Finset.card_insert_of_notMem new, ← reflects.size]
      rfl

/-- What a call comes to after the calls `before`. -/
structure Transparent (before : List Call) (c : Call) : Prop where
  /-- It gives the template that the list makes, or the error. -/
  outcome : c.outcome.map CachedTemplate.template = Template.ofFragments c.list.fragments
  /-- It gives the template of an earlier call just when that one asked for the same list. -/
  same : ∀ b ∈ before, ∀ t u, b.outcome = .ok t → c.outcome = .ok u →
    (t.serial = u.serial ↔ b.list = c.list)
  /-- The list is parsed unless an earlier call has returned its template. -/
  parsed : c.parsed = if c.list ∈ served before then [] else [c.list.fragments]
  /-- A list that makes no template is parsed, and it is not stored. -/
  failed : c.succeeded = false → c.parsed = [c.list.fragments] ∧ c.cache.get? c.list.key = none
  /-- The cache holds what the calls have returned. -/
  held : ∀ key t, c.cache.get? key = some t ↔
    ∃ b ∈ before ++ [c], b.list.key = key ∧ b.outcome = .ok t
  /-- These are as many templates as there are lists for which a call has returned one. -/
  size : c.cache.size = (served (before ++ [c])).card

theorem Reflects.transparent (reflects : Reflects past cache)
    (fetched : cache.Fetches list outcome after noted)
    (apart : Apart (past.map Call.list ++ [list])) :
    Transparent past ⟨list, outcome, noted, after⟩ := by
  have reflects' := reflects.snoc fetched apart
  have known := reflects.get?_ne_none_iff apart
  have last : ⟨list, outcome, noted, after⟩ ∈ past ++ [⟨list, outcome, noted, after⟩] :=
    List.mem_concat_self
  refine ⟨reflects'.outcome _ last, ?_, ?_, ?_, reflects'.held, reflects'.size⟩
  · intro b mem t u returned returned'
    have there := (reflects'.held _ _).mpr ⟨b, List.mem_append_left _ mem, rfl, returned⟩
    have there' := (reflects'.held _ _).mpr ⟨_, last, rfl, returned'⟩
    constructor
    · intro serial
      have key := reflects'.numbered.key_eq _ _ _ _ there there' serial
      have earlier : b.list ∈ past.map Call.list := List.mem_map_of_mem mem
      exact apart.eq (List.mem_append_left _ earlier) List.mem_concat_self key
    · intro list
      rw [list, there'] at there
      rw [Option.some.inj there]
  · cases fetched with
    | hit there => rw [if_pos (known.mp (by simp [there]))]
    | refused absent fails => rw [if_neg fun mem => known.mpr mem absent]
    | stored absent made => rw [if_neg fun mem => known.mpr mem absent]
  · intro failed
    cases fetched with
    | refused absent fails => exact ⟨rfl, absent⟩
    | hit there => cases failed
    | stored absent made => cases failed

/-! ## Every call -/

theorem Reflects.transparent_of_calls {lists : List StaticFragments} {before behind : List Call}
    (reflects : Reflects past cache) (apart : Apart (past.map Call.list ++ lists))
    (split : cache.calls lists = before ++ c :: behind) : Transparent (past ++ before) c := by
  -- along the lists that are left; each call moves on from them to the past
  induction lists generalizing cache past before with
  | nil => cases before <;> cases split
  | cons list lists ih =>
    have fetched := fetches cache list
    rw [List.append_cons] at apart
    have apart' := apart.mono (List.subset_append_left _ lists)
    cases before with
    | nil =>
      obtain ⟨rfl, -⟩ := List.cons.inj split
      rw [List.append_nil]
      exact reflects.transparent fetched apart'
    | cons first before =>
      obtain ⟨rfl, later⟩ := List.cons.inj split
      have reflects' : Reflects (past ++ [cache.call list]) _ := reflects.snoc fetched apart'
      rw [List.append_cons]
      exact ih reflects' (by simpa [call] using apart) later

/-- Whatever lists a cache is asked for, each call is transparent. -/
theorem fetch_transparent {lists : List StaticFragments} (apart : Apart lists) :
    (calls {} lists).map Call.list = lists ∧
    ∀ before c behind, calls {} lists = before ++ c :: behind → Transparent before c :=
  ⟨map_list_calls {} lists, fun _ _ _ split => Reflects.nil.transparent_of_calls apart split⟩

/-- Two lists with the same fragments and one that makes no template, and then one of each kind
again. -/
def askedAgain : List StaticFragments :=
  let row := ["<p>".toList, "</p>".toList]
  let torn := ["<a title=\"".toList, ">".toList]
  [⟨1, row⟩, ⟨2, row⟩, ⟨3, torn⟩, ⟨1, row⟩, ⟨3, torn⟩]

theorem fetch_transparent_askedAgain :
    Apart askedAgain ∧
    (calls {} askedAgain).map (fun c => (c.succeeded, c.parsed.length, c.cache.size)) =
      [(true, 1, 1), (true, 1, 2), (false, 1, 2), (true, 0, 2), (false, 1, 2)] ∧
    Transparent ((calls {} askedAgain).take 3) (calls {} askedAgain)[3] ∧
    Transparent ((calls {} askedAgain).take 4) (calls {} askedAgain)[4] := by
  have apart : Apart askedAgain := by decide
  have transparent := (fetch_transparent apart).2
  exact ⟨apart, by decide +kernel, transparent _ _ _ rfl, transparent _ _ _ rfl⟩

end TemplateCache

end LiveMarkup
