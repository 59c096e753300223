import DirectoryAccess.Condition.Operand
import DirectoryAccess.EnumSet
import DirectoryAccess.ReadError

/-!
# Days of the week
-/
namespace DirectoryAccess

/-- A day; the week begins on Sunday. -/
inductive Day where
  | sunday
  | monday
  | tuesday
  | wednesday
  | thursday
  | friday
  | saturday
  deriving DecidableEq, Ord

namespace Day

def all : List Day := [sunday, monday, tuesday, wednesday, thursday, friday, saturday]

/-- The abbreviation that is written; two of them have four letters. -/
def shortName : Day → String
  | sunday => "Sun"
  | monday => "Mon"
  | tuesday => "Tues"
  | wednesday => "Wed"
  | thursday => "Thur"
  | friday => "Fri"
  | saturday => "Sat"

def fullName : Day → String
  | sunday => "sunday"
  | monday => "monday"
  | tuesday => "tuesday"
  | wednesday => "wednesday"
  | thursday => "thursday"
  | friday => "friday"
  | saturday => "saturday"

/-- The first three letters of the full name. -/
def threeLetters (d : Day) : String :=
  String.ofList (d.fullName.toList.take 3)

/-- The day with the given name, full or abbreviated, blanks around it and the case of its letters
aside. -/
def ofName? (text : String) : Option Day :=
  let word := Text.trimmed text
  all.find? (fun d =>
    Text.sameWord d.shortName word || Text.sameWord d.threeLetters word ||
      Text.sameWord d.fullName word)

theorem mem_all (d : Day) : d ∈ all := by
  cases d <;> decide

theorem ofName?_shortName (d : Day) : ofName? d.shortName = some d := by
  cases d <;> decide

end Day

instance : Enumerated Day where
  all := Day.all
  mem_all := Day.mem_all
  nodup_all := by decide

structure Weekdays where
  days : EnumSet Day := {}
  deriving DecidableEq

namespace Weekdays

def voidMarker : String := "<invalid_days>"

def contains (w : Weekdays) (d : Day) : Bool :=
  w.days.contains d

def insert (w : Weekdays) (d : Day) : Weekdays :=
  ⟨w.days.insert d⟩

def erase (w : Weekdays) (d : Day) : Weekdays :=
  ⟨w.days.erase d⟩

def ofList (days : List Day) : Weekdays :=
  ⟨.ofList days⟩

def toList (w : Weekdays) : List Day :=
  w.days.toList

def size (w : Weekdays) : Nat :=
  w.toList.length

def isVoid (w : Weekdays) : Bool :=
  w.days.isEmpty

def render (w : Weekdays) : String :=
  if w.isVoid then voidMarker else ",".intercalate (w.toList.map Day.shortName)

def readDay (word : String) : Except ReadError Day :=
  match Day.ofName? word with
  | some day => .ok day
  | none => .error { cause := .unknown "day" word }

def read (text : String) : Except ReadError Weekdays := do
  return ofList (← (Text.split ',' text).mapM readDay)

def toOperand (w : Weekdays) : Operand :=
  .single (.bind .dayOfWeek) (if w.isVoid then none else some w.render)

end Weekdays

end DirectoryAccess
