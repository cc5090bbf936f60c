import LiveMarkup.Binary64
import LiveMarkup.Keyed

/-!
# JSON values

Integers and floating-point numbers are different values: `1` is not `1.0`. Objects keep their
members in order of first insertion, and the order does not matter when two are compared.
-/

namespace LiveMarkup

/-- A JSON value. -/
inductive Json where
  | null
  | bool (b : Bool)
  | int (n : Int)
  | float (x : Binary64)
  | str (s : Text)
  | arr (items : List Json)
  | obj (fields : List (Text × Json))
  deriving Repr, Inhabited

namespace Json

/-- The integers that JSON numbers hold: those of 64 bits, signed or not. -/
def inRange (n : Int) : Bool := -(Nat.pow 2 63 : Int) ≤ n && n < (Nat.pow 2 64 : Int)

/-- The number of a JSON value, as it takes part in floating-point arithmetic. -/
def number? : Json → Option Binary64
  | .int n => some (.ofInt n)
  | .float x => some x
  | _ => none

/-- The integer of a JSON value, when it has one that fits 64 bits with a sign. -/
def int? : Json → Option Int
  | .int n => if n < (Nat.pow 2 63 : Int) then some n else none
  | _ => none

/-- The JSON number for `x`: an integer when `x` is a safe one, null when `x` is not finite. -/
def ofBinary64 (x : Binary64) : Json :=
  match x.safeInt? with
  | some n => .int n
  | none => if x.isFinite then .float x else .null

/-! ## Members -/

/-- The item at `i` of an array. -/
def item? (i : Nat) : Json → Option Json
  | .arr items => items[i]?
  | _ => none

/-- The member under `key` of an object. -/
def member? (key : Text) : Json → Option Json
  | .obj fields => Keyed.get? fields key
  | _ => none

/-! ## Equality -/

mutual

/-- The two values are equal, members of objects taken in any order. -/
def same : Json → Json → Bool
  | .null, .null => true
  | .bool a, .bool b => a == b
  | .int a, .int b => a == b
  | .float a, .float b => a.same b
  | .str a, .str b => a == b
  | .arr a, .arr b => sameItems a b
  | .obj a, .obj b => a.length == b.length && sameMembers a b
  | _, _ => false

/-- The two lists are equal item by item. -/
def sameItems : List Json → List Json → Bool
  | [], [] => true
  | a :: as, b :: bs => same a b && sameItems as bs
  | _, _ => false

/-- Every member of the first list is in the second one with an equal value. -/
def sameMembers : List (Text × Json) → List (Text × Json) → Bool
  | [], _ => true
  | (key, a) :: as, bs =>
    (match Keyed.get? bs key with
      | some b => same a b
      | none => false) && sameMembers as bs

end

end Json

end LiveMarkup
