import DirectoryAccess.Text.Numeral
import DirectoryAccess.Text.Pieces

/-!
# Where reading stops, and why

A fault keeps the text that was still unread where reading failed, so its place in the whole text is
known. The report shows the place under the text and then what was expected there.
-/
namespace DirectoryAccess.Grammar

/-- What would have been right at the place of a fault. -/
inductive Expectation where
  /-- Exactly this text. -/
  | sign (text : String)
  /-- Something of this description. -/
  | thing (description : String)
  deriving DecidableEq

/-- What a rule of the grammar remarks on a fault inside it. -/
inductive Note where
  /-- There is something, but it is no such thing. -/
  | invalid (what : String)
  | expected (what : Expectation)
  deriving DecidableEq

/-- A failure to read. -/
structure Fault where
  rest : List Char
  /-- The text could not have meant anything else, so no other reading is tried. -/
  final : Bool
  /-- The remarks of the rules around the place, innermost first. -/
  notes : List Note
  deriving DecidableEq

namespace Expectation

/-- Exact texts are shown between backticks. -/
def message : Expectation → String
  | sign text => "`" ++ text ++ "`"
  | thing description => description

end Expectation

namespace Note

def invalid? : Note → Option String
  | invalid what => some what
  | expected _ => none

def expected? : Note → Option Expectation
  | invalid _ => none
  | expected what => some what

/-- What is wrong, by the innermost remark that says so, and on a line of its own everything that
was expected. -/
def summary (notes : List Note) : String :=
  let wrong := (notes.findSome? invalid?).map ("invalid " ++ ·)
  let expectations := notes.filterMap expected?
  let wanted :=
    if expectations.isEmpty then none
    else some ("expected " ++ ", ".intercalate (expectations.map Expectation.message))
  "\n".intercalate (wrong.toList ++ wanted.toList)

end Note

namespace Fault

def blanks (width : Nat) : String :=
  String.ofList (List.replicate width ' ')

def before (input : List Char) (f : Fault) : List Char :=
  input.take (input.length - f.rest.length)

/-- The end of a text behind its last line feed. -/
def lastLine (cs : List Char) : List Char :=
  (cs.reverse.takeWhile (· ≠ '\n')).reverse

/-- The number of the line of the fault, counted from zero. The end of the text belongs to the line
of the last character, be that a line feed. -/
def lineIndex (input : List Char) (f : Fault) : Nat :=
  let passed := f.before input
  (if f.rest.isEmpty then passed.dropLast else passed).count '\n'

/-- The width of the line in front of the fault. It is counted in characters, but in bytes where
the fault stands at a character of several bytes. -/
def column (input : List Char) (f : Fault) : Nat :=
  let passed := f.before input
  match f.rest with
  | [] => (lastLine passed.dropLast).length + 1
  | c :: _ => if c.utf8Size = 1 then (lastLine passed).length else Text.byteLength (lastLine passed)

/-- The place of the fault, marked under the text that was to be read. A text of several lines is
shown by the line of the fault, with the line number beside it. -/
def placeText (input : List Char) (f : Fault) : String :=
  if input.contains '\n' then
    let index := f.lineIndex input
    let number := toString (index + 1)
    let margin := blanks number.length
    let line := ((Text.piecesAt '\n' input)[index]?).getD []
    let column := f.column input
    s!"parse error at line {number}, column {column + 1}\n{margin} |\n" ++
      s!"{number} | {String.ofList line}\n{margin} | {blanks column}^\n"
  else
    String.ofList input ++ "\n" ++ blanks (Text.byteLength (f.before input)) ++ "^\n"

/-- The full report on a fault in the given text. -/
def report (input : List Char) (f : Fault) : String :=
  f.placeText input ++ Note.summary f.notes

end Fault

end DirectoryAccess.Grammar
