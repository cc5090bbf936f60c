import LiveMarkup.Text

/-!
# Keyed lists

A keyed list holds values under text keys in the order in which the keys first came. Inserting
under a key that is there replaces its value in place; a new key goes to the end. Attributes of
a tag, members of a JSON object and the state of an element are all keyed lists.

`get?_insert` says what a lookup finds after an insertion, `keys_insert` what becomes of the order.
-/

namespace LiveMarkup

/-- Values under text keys, in order of first insertion. -/
abbrev Keyed (α : Type) := List (Text × α)

namespace Keyed

variable {α : Type}

/-- The value under `key`. -/
def get? (m : Keyed α) (key : Text) : Option α :=
  match m with
  | [] => none
  | (k, v) :: m => if k = key then some v else get? m key

/-- Put `value` under `key`: in place when the key is there, at the end otherwise. -/
def insert (m : Keyed α) (key : Text) (value : α) : Keyed α :=
  match m with
  | [] => [(key, value)]
  | (k, v) :: m => if k = key then (k, value) :: m else (k, v) :: insert m key value

/-- The keys in order. -/
def keys (m : Keyed α) : List Text := m.map Prod.fst

/-- There is a value under `key`. -/
def has (m : Keyed α) (key : Text) : Bool := (get? m key).isSome

/-- Insert the pairs from left to right, so that the last value of a repeated key stays. -/
def ofList (pairs : List (Text × α)) : Keyed α :=
  pairs.foldl (fun m p => insert m p.1 p.2) []

@[simp] theorem get?_nil (key : Text) : get? ([] : Keyed α) key = none := rfl

theorem get?_insert (m : Keyed α) (key other : Text) (value : α) :
    get? (insert m key value) other = if key = other then some value else get? m other := by
  induction m with
  | nil => simp [insert, get?]
  | cons p m ih =>
    obtain ⟨k, v⟩ := p
    by_cases hk : k = key
    · subst hk; by_cases ho : k = other <;> simp [insert, get?, ho]
    · by_cases ho : k = other
      · subst ho; simp [insert, get?, hk, Ne.symm hk]
      · simp [insert, get?, hk, ho, ih]

theorem keys_insert (m : Keyed α) (key : Text) (value : α) :
    keys (insert m key value) = if key ∈ keys m then keys m else keys m ++ [key] := by
  induction m with
  | nil => simp [insert, keys]
  | cons p m ih =>
    obtain ⟨k, v⟩ := p
    simp only [keys] at ih
    by_cases hk : k = key
    · subst hk; simp [insert, keys]
    · simp only [insert, keys, hk, if_false, List.map_cons, ih, List.mem_cons, Ne.symm hk, false_or]
      split <;> simp [*]

/-- Insertion never makes a key appear twice. -/
theorem nodup_keys_insert {m : Keyed α} (h : (keys m).Nodup) (key : Text) (value : α) :
    (keys (insert m key value)).Nodup := by
  rw [keys_insert]
  split
  · exact h
  · next hk => exact List.nodup_append.mpr ⟨h, by simp, by grind⟩

theorem mem_of_mem_insert {m : Keyed α} {p : Text × α} {key : Text} {value : α}
    (h : p ∈ insert m key value) : p = (key, value) ∨ p ∈ m := by
  induction m with
  | nil => exact .inl (List.mem_singleton.mp h)
  | cons q m ih =>
    obtain ⟨k, v⟩ := q
    simp only [insert] at h
    split at h
    · next hk =>
      rcases List.mem_cons.mp h with rfl | h
      · exact .inl (by rw [hk])
      · exact .inr (List.mem_cons_of_mem _ h)
    · rcases List.mem_cons.mp h with rfl | h
      · exact .inr List.mem_cons_self
      · exact (ih h).imp_right (List.mem_cons_of_mem _)

/-- Inserting pairs one after the other keeps keys apart and adds nothing but the pairs. -/
theorem foldl_insert_spec {m : Keyed α} (h : (keys m).Nodup) (pairs : List (Text × α)) :
    (keys (pairs.foldl (fun m p => insert m p.1 p.2) m)).Nodup ∧
      ∀ p ∈ pairs.foldl (fun m p => insert m p.1 p.2) m, p ∈ m ∨ p ∈ pairs := by
  induction pairs generalizing m with
  | nil => exact ⟨h, fun p hp => .inl hp⟩
  | cons q pairs ih =>
    obtain ⟨hkeys, hmem⟩ := ih (nodup_keys_insert h q.1 q.2)
    refine ⟨hkeys, fun p hp => ?_⟩
    rcases hmem p hp with hp | hp
    · rcases mem_of_mem_insert hp with rfl | hp
      · exact .inr List.mem_cons_self
      · exact .inl hp
    · exact .inr (List.mem_cons_of_mem q hp)

theorem nodup_keys_ofList (pairs : List (Text × α)) : (keys (ofList pairs)).Nodup :=
  (foldl_insert_spec (m := []) List.nodup_nil pairs).1

theorem mem_of_mem_ofList {pairs : List (Text × α)} {p : Text × α} (h : p ∈ ofList pairs) :
    p ∈ pairs :=
  ((foldl_insert_spec (m := []) List.nodup_nil pairs).2 p h).resolve_left List.not_mem_nil

theorem insert_of_not_mem {m : Keyed α} {key : Text} (h : key ∉ keys m) (value : α) :
    insert m key value = m ++ [(key, value)] := by
  induction m with
  | nil => rfl
  | cons p m ih =>
    simp only [keys, List.map_cons, List.mem_cons, not_or] at h
    simp only [insert, Ne.symm h.1, if_false, List.cons_append, ih h.2]

theorem foldl_insert_append {m n : Keyed α} (h : (keys (m ++ n)).Nodup) :
    n.foldl (fun m p => insert m p.1 p.2) m = m ++ n := by
  induction n generalizing m with
  | nil => simp
  | cons p n ih =>
    have hkeys : keys (m ++ p :: n) = keys m ++ p.1 :: keys n := by simp [keys]
    rw [hkeys] at h
    have hp : p.1 ∉ keys m := fun hm =>
      (List.nodup_append.mp h).2.2 _ hm _ List.mem_cons_self rfl
    rw [List.foldl_cons, insert_of_not_mem hp, ih]
    · simp
    · simpa [keys] using h

/-- Distinct keys stay as they are. -/
theorem ofList_of_nodup {m : Keyed α} (h : (keys m).Nodup) : ofList m = m := by
  simpa [ofList] using foldl_insert_append (m := []) (n := m) (by simpa using h)

end Keyed

end LiveMarkup
