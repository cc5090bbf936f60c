import LiveMarkup.Text

/-!
# Dates and times

A moment is a date of the calendar, a time of day, or both, and then it may tell its distance from
universal time. It is read from the form `1979-05-27T07:32:00.5+01:00` or a part of it, and written
back in the one form that shows what it is: a capital `T` between date and time, no zeros at the end
of a fraction, of which nine digits count, and a capital `Z` where it was so read.
-/

namespace LiveMarkup

/-- A date of the calendar. -/
structure CalendarDate where
  year : Nat
  month : Nat
  day : Nat
  deriving DecidableEq, Repr, Inhabited

/-- A time of day. -/
structure ClockTime where
  hour : Nat
  minute : Nat
  second : Nat
  nanosecond : Nat
  deriving DecidableEq, Repr, Inhabited

/-- How a time lies to universal time. -/
inductive TimeZone where
  | universal
  /-- So many minutes ahead of it. -/
  | ahead (minutes : Int)
  deriving DecidableEq, Repr, Inhabited

/-- A date, a time, or both. -/
inductive Moment where
  | date (d : CalendarDate)
  | time (t : ClockTime)
  | both (d : CalendarDate) (t : ClockTime) (zone : Option TimeZone)
  deriving DecidableEq, Repr, Inhabited

/-! ## Reading -/

/-- The number that two digits denote. -/
def twoDigits? (a b : Char) : Option Nat :=
  if a.isDigit && b.isDigit then some (Text.digitsValue [a, b]) else none

/-- How many days a month has. -/
def daysIn (year month : Nat) : Nat :=
  if month = 2 then
    if year % 4 = 0 && (year % 100 ≠ 0 || year % 400 = 0) then 29 else 28
  else if month = 4 || month = 6 || month = 9 || month = 11 then 30
  else 31

/-- The date at the start of `t`, and what follows it. -/
def CalendarDate.read? : Text → Option (CalendarDate × Text)
  | a :: b :: c :: d :: '-' :: e :: f :: '-' :: g :: h :: t => do
    let century ← twoDigits? a b
    let year ← twoDigits? c d
    let month ← twoDigits? e f
    let day ← twoDigits? g h
    let year := 100 * century + year
    guard (1 ≤ month && month ≤ 12 && 1 ≤ day && day ≤ daysIn year month)
    return (⟨year, month, day⟩, t)
  | _ => none

namespace ClockTime

/-- How many digits of a fraction of a second count. -/
def precision : Nat := 9

/-- The nanoseconds that the digits of a fraction denote. -/
def nanoseconds (digits : Text) : Nat :=
  let digits := digits.take precision
  Text.digitsValue digits * Nat.pow 10 (precision - digits.length)

/-- The time at the start of `t`, and what follows it; a minute may have a leap second. -/
def read? : Text → Option (ClockTime × Text)
  | a :: b :: ':' :: c :: d :: ':' :: e :: f :: t => do
    let hour ← twoDigits? a b
    let minute ← twoDigits? c d
    let second ← twoDigits? e f
    guard (hour < 24 && minute < 60 && second ≤ 60)
    match t with
    | '.' :: t =>
      let digits := t.takeWhile Char.isDigit
      if digits.isEmpty then none
      else return (⟨hour, minute, second, nanoseconds digits⟩, t.dropWhile Char.isDigit)
    | t => return (⟨hour, minute, second, 0⟩, t)
  | _ => none

end ClockTime

/-- The zone that `t` is. -/
def TimeZone.ofText? : Text → Option TimeZone
  | ['Z'] | ['z'] => some .universal
  | [s, a, b, ':', c, d] => do
    let hour ← twoDigits? a b
    let minute ← twoDigits? c d
    guard (hour < 24 && minute < 60)
    let distance : Int := 60 * hour + minute
    if s = '+' then return .ahead distance
    else if s = '-' then return .ahead (-distance)
    else none
  | _ => none

/-- The moment that `t` is. -/
def Moment.ofText? (t : Text) : Option Moment :=
  match CalendarDate.read? t with
  | some (d, []) => some (.date d)
  | some (d, c :: t) =>
    if c = 'T' || c = 't' || c = ' ' then
      match ClockTime.read? t with
      | none => none
      | some (clock, []) => some (.both d clock none)
      | some (clock, zone) => (TimeZone.ofText? zone).map fun zone => .both d clock (some zone)
    else none
  | none =>
    match ClockTime.read? t with
    | some (clock, []) => some (.time clock)
    | _ => none

/-! ## Writing -/

/-- The digits of `n`, at least `width` of them. -/
def digitsOf (width n : Nat) : Text :=
  let digits := Text.ofNat n
  List.replicate (width - digits.length) '0' ++ digits

/-- The text of a date. -/
def CalendarDate.text (d : CalendarDate) : Text :=
  digitsOf 4 d.year ++ '-' :: digitsOf 2 d.month ++ '-' :: digitsOf 2 d.day

/-- The text of a time. -/
def ClockTime.text (t : ClockTime) : Text :=
  let whole := digitsOf 2 t.hour ++ ':' :: digitsOf 2 t.minute ++ ':' :: digitsOf 2 t.second
  if t.nanosecond = 0 then whole
  else
    let fraction := digitsOf ClockTime.precision t.nanosecond
    whole ++ '.' :: (fraction.reverse.dropWhile (· = '0')).reverse

/-- The text of a zone. -/
def TimeZone.text : TimeZone → Text
  | .universal => ['Z']
  | .ahead minutes =>
    let distance := minutes.natAbs
    (if minutes < 0 then '-' else '+') :: digitsOf 2 (distance / 60) ++
      ':' :: digitsOf 2 (distance % 60)

/-- The text of a moment. -/
def Moment.text : Moment → Text
  | .date d => d.text
  | .time t => t.text
  | .both d t zone => d.text ++ 'T' :: t.text ++ (zone.map TimeZone.text).getD []

end LiveMarkup
