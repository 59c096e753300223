import DirectoryAccess.Condition.Operand
import DirectoryAccess.ReadError

/-!
# Times of day

A time is written as four digits, hour and minute, from `0000` to `2400`.
-/
namespace DirectoryAccess

/-- An hour and a minute of one day, its end included. -/
structure ClockTime where
  hour : Nat
  minute : Nat
  valid : hour ≤ 23 ∧ minute ≤ 59 ∨ hour = 24 ∧ minute = 0
  deriving DecidableEq

/-- A time of day; none at all where the text was refused. -/
structure TimeOfDay where
  clock : Option ClockTime := none
  deriving DecidableEq

namespace ClockTime

/-- The time with the given hour and minute, if there is one. -/
def ofNats? (hour minute : Nat) : Option ClockTime :=
  if h : hour ≤ 23 ∧ minute ≤ 59 ∨ hour = 24 ∧ minute = 0 then some ⟨hour, minute, h⟩ else none

/-- The time that four digits spell. -/
def ofDigits? : List Char → Option ClockTime
  | [a, b, c, d] =>
    if [a, b, c, d].all Char.isDigit then ofNats? (Text.numberOf [a, b]) (Text.numberOf [c, d])
    else none
  | _ => none

/-- The number whose four digits are the written form. -/
def number (t : ClockTime) : Nat :=
  100 * t.hour + t.minute

def render (t : ClockTime) : String :=
  Text.paddedNumeral 4 t.number

end ClockTime

namespace TimeOfDay

def voidMarker : String := "<invalid_time_of_day>"

/-- The time with the given hour and minute, if there is one. -/
def ofNats? (hour minute : Nat) : Option TimeOfDay :=
  (ClockTime.ofNats? hour minute).map (⟨some ·⟩)

/-- The time that a text spells, blanks around it aside. -/
def read (text : String) : Except ReadError TimeOfDay :=
  match ClockTime.ofDigits? (Text.trim text.toList) with
  | some clock => .ok ⟨some clock⟩
  | none => .error { cause := .notTime text }

/-- The time that a text spells, void where it spells none. -/
def ofText (text : String) : TimeOfDay :=
  ⟨ClockTime.ofDigits? (Text.trim text.toList)⟩

def isVoid (t : TimeOfDay) : Bool :=
  t.clock.isNone

def render (t : TimeOfDay) : String :=
  match t.clock with
  | some clock => clock.render
  | none => voidMarker

/-- Times are ordered by the clock; a void time comes before every other. -/
instance : Ord TimeOfDay where
  compare t u :=
    match t.clock, u.clock with
    | none, none => .eq
    | none, some _ => .lt
    | some _, none => .gt
    | some a, some b => compare a.number b.number

def toOperand (t : TimeOfDay) : Operand :=
  .single (.bind .timeOfDay) (t.clock.map ClockTime.render)

end TimeOfDay

end DirectoryAccess
