import LiveMarkup.Json
import LiveMarkup.Proofs.Markup.AttributeList
import Mathlib.Data.List.Perm.Subperm

/-!
# Equality of JSON values

Two JSON values are equal when they are the same but for the order of members. On values in which
no object has two members under one key, as all are that are read or made by insertion, this is
symmetric and transitive (`same_symm`, `same_trans`). It is not reflexive: not-a-number differs
from itself.
-/

namespace LiveMarkup

/-- What is found under a key is there. -/
theorem Keyed.mem_of_get? {α : Type} {m : Keyed α} {key : Text} {value : α}
    (found : get? m key = some value) : (key, value) ∈ m := by
  induction m with
  | nil => cases found
  | cons p m ih =>
    rw [get?] at found
    split at found
    · next same =>
      obtain rfl := Option.some.inj found
      exact same ▸ List.mem_cons_self
    · exact List.mem_cons_of_mem p (ih found)

namespace Binary64

theorem same_symm {x y : Binary64} (same : x.same y = true) : y.same x = true := by
  cases x with
  | nan => cases same
  | infinity s =>
    cases y with
    | infinity t =>
      have eq : s = t := of_decide_eq_true same
      exact decide_eq_true eq.symm
    | _ => cases same
  | finite s u =>
    cases y with
    | finite t v =>
      simp only [Binary64.same, Bool.and_eq_true, Bool.or_eq_true, decide_eq_true_eq] at same ⊢
      obtain ⟨rfl, signs⟩ := same
      exact ⟨rfl, signs.imp_right Eq.symm⟩
    | _ => cases same

theorem same_trans {x y z : Binary64} (first : x.same y = true) (second : y.same z = true) :
    x.same z = true := by
  cases y with
  | nan => cases second
  | infinity t =>
    cases x with
    | infinity s =>
      have eq : s = t := of_decide_eq_true first
      exact eq ▸ second
    | _ => cases first
  | finite t v =>
    cases x with
    | finite s u =>
      cases z with
      | finite r u' =>
        simp only [Binary64.same, Bool.and_eq_true, Bool.or_eq_true, decide_eq_true_eq]
          at first second ⊢
        obtain ⟨rfl, signs⟩ := first
        obtain ⟨rfl, signs'⟩ := second
        refine ⟨rfl, ?_⟩
        rcases signs with zero | rfl
        · exact .inl zero
        · exact signs'
      | _ => cases second
    | _ => cases first

end Binary64

namespace Json

variable {a b c : Json} {as bs cs : List Json} {fields others : List (Text × Json)}

/-! ## Members -/

/-- No object in the value has two members under one key. -/
inductive KeysApart : Json → Prop
  | null : KeysApart .null
  | bool (b : Bool) : KeysApart (.bool b)
  | int (n : Int) : KeysApart (.int n)
  | float (x : Binary64) : KeysApart (.float x)
  | str (s : Text) : KeysApart (.str s)
  | arr {items : List Json} (apart : ∀ j ∈ items, KeysApart j) : KeysApart (.arr items)
  | obj {fields : List (Text × Json)} (once : (Keyed.keys fields).Nodup)
    (apart : ∀ p ∈ fields, KeysApart p.2) : KeysApart (.obj fields)

theorem sameMembers_iff : sameMembers fields others = true ↔
    ∀ p ∈ fields, ∃ b, Keyed.get? others p.1 = some b ∧ same p.2 b = true := by
  induction fields with
  | nil => simp [sameMembers]
  | cons p fields ih =>
    rw [sameMembers, Bool.and_eq_true, ih, List.forall_mem_cons]
    cases Keyed.get? others p.1 with
    | none => simp
    | some b => simp

/-- Members that are all in another object with as many are all that there are in it. -/
theorem keys_subset (once : (Keyed.keys fields).Nodup) (length : fields.length = others.length)
    (members : sameMembers fields others = true) : Keyed.keys others ⊆ Keyed.keys fields := by
  have subset : Keyed.keys fields ⊆ Keyed.keys others := by
    intro key mem
    obtain ⟨p, there, rfl⟩ := List.mem_map.mp mem
    obtain ⟨b, found, -⟩ := sameMembers_iff.mp members p there
    exact List.mem_map.mpr ⟨(p.1, b), Keyed.mem_of_get? found, rfl⟩
  have longer : (Keyed.keys others).length ≤ (Keyed.keys fields).length :=
    Nat.le_of_eq (by rw [Keyed.keys, Keyed.keys, List.length_map, List.length_map, length])
  exact ((List.subperm_of_subset once subset).perm_of_length_le longer).symm.subset

/-! ## Symmetry -/

theorem sameItems_symm (symm : ∀ a ∈ as, ∀ b ∈ bs, same a b = true → same b a = true)
    (same : sameItems as bs = true) : sameItems bs as = true := by
  induction as generalizing bs with
  | nil =>
    cases bs with
    | nil => rfl
    | cons b bs => cases same
  | cons a as ih =>
    cases bs with
    | nil => cases same
    | cons b bs =>
      rw [sameItems, Bool.and_eq_true] at same ⊢
      refine ⟨symm a List.mem_cons_self b List.mem_cons_self same.1, ih ?_ same.2⟩
      exact fun a mem b mem' => symm a (List.mem_cons_of_mem _ mem) b (List.mem_cons_of_mem _ mem')

theorem same_symm (apart : a.KeysApart) (apart' : b.KeysApart) (same : a.same b = true) :
    b.same a = true := by
  induction apart generalizing b with
  | null =>
    cases apart' with
    | null => exact same
    | _ => cases same
  | bool p =>
    cases apart' with
    | bool q => exact beq_iff_eq.mpr (beq_iff_eq.mp same).symm
    | _ => cases same
  | int p =>
    cases apart' with
    | int q => exact beq_iff_eq.mpr (beq_iff_eq.mp same).symm
    | _ => cases same
  | float x =>
    cases apart' with
    | float y => exact Binary64.same_symm same
    | _ => cases same
  | str p =>
    cases apart' with
    | str q => exact beq_iff_eq.mpr (beq_iff_eq.mp same).symm
    | _ => cases same
  | arr _ ih =>
    cases apart' with
    | arr apart' => exact sameItems_symm (fun a mem b mem' => ih a mem (apart' b mem')) same
    | _ => cases same
  | obj once _ ih =>
    cases apart' with
    | obj once' apart' =>
      simp only [Json.same, Bool.and_eq_true, beq_iff_eq] at same ⊢
      obtain ⟨length, members⟩ := same
      refine ⟨length.symm, sameMembers_iff.mpr fun q mem => ?_⟩
      have mem_keys := keys_subset once length members (List.mem_map_of_mem mem)
      obtain ⟨p, there, key⟩ := List.mem_map.mp mem_keys
      obtain ⟨b, found, same⟩ := sameMembers_iff.mp members p there
      -- the other value has one member under the key
      have value : b = q.2 := by
        rw [key, (Keyed.get?_eq_some_iff once').mpr mem] at found
        exact (Option.some.inj found).symm
      subst value
      refine ⟨p.2, (Keyed.get?_eq_some_iff once).mpr (key ▸ there), ?_⟩
      exact ih p there (apart' q mem) same
    | _ => cases same

/-! ## Transitivity -/

theorem sameItems_trans
    (trans : ∀ a ∈ as, ∀ b c, same a b = true → same b c = true → same a c = true)
    (first : sameItems as bs = true) (second : sameItems bs cs = true) :
    sameItems as cs = true := by
  induction as generalizing bs cs with
  | nil =>
    cases bs with
    | nil => exact second
    | cons b bs => cases first
  | cons a as ih =>
    cases bs with
    | nil => cases first
    | cons b bs =>
      cases cs with
      | nil => cases second
      | cons c cs =>
        rw [sameItems, Bool.and_eq_true] at first second ⊢
        refine ⟨trans a List.mem_cons_self b c first.1 second.1, ih ?_ first.2 second.2⟩
        exact fun a mem => trans a (List.mem_cons_of_mem _ mem)

theorem same_trans (apart : a.KeysApart) (first : a.same b = true) (second : b.same c = true) :
    a.same c = true := by
  induction apart generalizing b c with
  | null =>
    cases b with
    | null => exact second
    | _ => cases first
  | bool p =>
    cases b with
    | bool q =>
      obtain rfl : p = q := beq_iff_eq.mp first
      exact second
    | _ => cases first
  | int p =>
    cases b with
    | int q =>
      obtain rfl : p = q := beq_iff_eq.mp first
      exact second
    | _ => cases first
  | float x =>
    cases b with
    | float y =>
      cases c with
      | float z => exact Binary64.same_trans first second
      | _ => cases second
    | _ => cases first
  | str p =>
    cases b with
    | str q =>
      obtain rfl : p = q := beq_iff_eq.mp first
      exact second
    | _ => cases first
  | arr _ ih =>
    cases b with
    | arr bs =>
      cases c with
      | arr cs => exact sameItems_trans (fun a mem b c => ih a mem) first second
      | _ => cases second
    | _ => cases first
  | obj _ _ ih =>
    cases b with
    | obj others =>
      cases c with
      | obj thirds =>
        simp only [Json.same, Bool.and_eq_true, beq_iff_eq] at first second ⊢
        obtain ⟨length, members⟩ := first
        obtain ⟨length', members'⟩ := second
        refine ⟨length.trans length', sameMembers_iff.mpr fun p mem => ?_⟩
        obtain ⟨b, found, same⟩ := sameMembers_iff.mp members p mem
        have there := Keyed.mem_of_get? found
        obtain ⟨c, found', same'⟩ := sameMembers_iff.mp members' (p.1, b) there
        exact ⟨c, found', ih p mem same same'⟩
      | _ => cases second
    | _ => cases first

/-! ## Lists of values -/

/-- No object in the values has two members under one key. -/
def AllKeysApart (items : List Json) : Prop := ∀ j ∈ items, j.KeysApart

theorem AllKeysApart.symm (apart : AllKeysApart as) (apart' : AllKeysApart bs)
    (same : sameItems as bs = true) : sameItems bs as = true :=
  sameItems_symm (fun a mem b mem' => same_symm (apart a mem) (apart' b mem')) same

theorem AllKeysApart.trans (apart : AllKeysApart as) (first : sameItems as bs = true)
    (second : sameItems bs cs = true) : sameItems as cs = true :=
  sameItems_trans (fun a mem _ _ => same_trans (apart a mem)) first second

end Json

end LiveMarkup
