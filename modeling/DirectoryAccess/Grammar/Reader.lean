import DirectoryAccess.Grammar.Fault
import DirectoryAccess.Text.Blank
import DirectoryAccess.Text.Start

/-!
# Readers

A reader takes what it needs from the start of a text, or fails where the text does not go on as it
has to. A failure is final once the text read so far allows no other reading; a choice, a repetition
and an option try something else after any other failure, and then start again from where they
began.
-/
namespace DirectoryAccess.Grammar

/-- What comes of reading. -/
inductive Outcome (α : Type) where
  /-- The value that was read, and the text behind it. -/
  | read (value : α) (rest : List Char)
  | failed (fault : Fault)
  deriving DecidableEq

/-- A way of reading a value from the start of a text. -/
def Reader (α : Type) : Type :=
  List Char → Outcome α

namespace Outcome

/-- The outcome with its failure, if it is one, changed. -/
def mapFault {α : Type} (f : Fault → Fault) : Outcome α → Outcome α
  | read a rest => read a rest
  | failed e => failed (f e)

end Outcome

namespace Reader

variable {α β : Type}

def give (a : α) : Reader α :=
  fun input => .read a input

/-- Reads with the first reader, and goes on with the one that the value asks for. -/
def andThen (p : Reader α) (f : α → Reader β) : Reader β := fun input =>
  match p input with
  | .read a rest => f a rest
  | .failed e => .failed e

instance : Monad Reader where
  pure := give
  bind := andThen

/-- Fails where it stands. -/
def refuse : Reader α :=
  fun input => .failed { rest := input, final := false, notes := [] }

/-- Takes what a function on the text finds at its start. -/
def ofFunction (take? : List Char → Option (α × List Char)) : Reader α := fun input =>
  match take? input with
  | some (a, rest) => .read a rest
  | none => refuse input

def sign (text : String) : Reader Unit :=
  ofFunction (fun input => (Text.after? text.toList input).map (fun rest => ((), rest)))

/-- Reads the word, the case of ASCII letters aside. -/
def word (text : String) : Reader Unit :=
  ofFunction (fun input => (Text.afterWord? text.toList input).map (fun rest => ((), rest)))

/-- Reads one character of the class. -/
def oneOf (p : Char → Bool) : Reader Char
  | [] => refuse []
  | c :: r => if p c then .read c r else refuse (c :: r)

/-- Reads all characters of the class that come next, if there are any. -/
def run (p : Char → Bool) : Reader (List Char) := fun input =>
  .read (input.takeWhile p) (input.dropWhile p)

/-- Reads all characters of the class that come next, at least one. -/
def run1 (p : Char → Bool) : Reader (List Char) := fun input =>
  if (input.takeWhile p).isEmpty then refuse input
  else .read (input.takeWhile p) (input.dropWhile p)

def remainder : Reader (List Char) := fun input =>
  .read input []

/-- Skips spaces, tabs and line ends, and tells whether there were any. -/
def gap : Reader Bool := do
  return !(← run Text.isGap).isEmpty

def skipGap : Reader Unit := do
  let _ ← run Text.isGap

/-- Reads nothing, but fails where the next character is of the class. -/
def notBefore (p : Char → Bool) : Reader Unit := fun input =>
  if input.head?.any p then refuse input else .read () input

/-- Reads a value and takes what the function makes of it; where it makes nothing of it, nothing is
read. -/
def select (p : Reader α) (f : α → Option β) : Reader β := fun input =>
  match p input with
  | .read a rest =>
    match f a with
    | some b => .read b rest
    | none => refuse input
  | .failed e => .failed e

def commit (p : Reader α) : Reader α := fun input =>
  (p input).mapFault ({ · with final := true })

def note (n : Note) (p : Reader α) : Reader α := fun input =>
  (p input).mapFault (fun e => { e with notes := e.notes ++ [n] })

/-- Remarks that what was to be read is no such thing. -/
def labelled (what : String) : Reader α → Reader α :=
  note (.invalid what)

/-- Remarks that something of this description was expected. -/
def described (description : String) : Reader α → Reader α :=
  note (.expected (.thing description))

/-- Reads what has to come next, and nothing else will do. -/
def require (text : String) : Reader Unit :=
  note (.expected (.sign text)) (commit (sign text))

def orElse (p q : Reader α) : Reader α := fun input =>
  match p input with
  | .read a rest => .read a rest
  | .failed e => if e.final then .failed e else q input

/-- Reads with the first reader of the list that succeeds; the failure of the last one counts. -/
def firstOf : List (Reader α) → Reader α
  | [] => refuse
  | [p] => p
  | p :: ps => orElse p (firstOf ps)

def optional (p : Reader α) : Reader (Option α) := fun input =>
  match p input with
  | .read a rest => .read (some a) rest
  | .failed e => if e.final then .failed e else .read none input

/-- Reads again and again, at most the given number of times. -/
def manyUpTo (p : Reader α) : Nat → Reader (List α)
  | 0 => fun input => .read [] input
  | n + 1 => fun input =>
    match p input with
    | .read a rest =>
      match manyUpTo p n rest with
      | .read as rest' => .read (a :: as) rest'
      | .failed e => .failed e
    | .failed e => if e.final then .failed e else .read [] input

/-- Reads again and again for as long as there is something to read. What is read is never empty, so
the length of the text bounds the number of times. -/
def many (p : Reader α) : Reader (List α) := fun input =>
  manyUpTo p (input.length + 1) input

def many1 (p : Reader α) : Reader (List α) := do
  let a ← p
  return a :: (← many p)

/-- Reads values with a separator between each two, at least one value. -/
def separated (p : Reader α) (separator : Reader Unit) : Reader (List α) := do
  let a ← p
  return a :: (← many (do separator; p))

/-- The value that the reader makes of a whole text. What it leaves unread is a failure. -/
def readAll (p : Reader α) (input : List Char) : Except Fault α :=
  match p input with
  | .read a [] => .ok a
  | .read _ (c :: r) => .error { rest := c :: r, final := false, notes := [] }
  | .failed e => .error e

end Reader

end DirectoryAccess.Grammar
