import DirectoryAccess.Client.Inheritance
import DirectoryAccess.Directory.FilterOperation
import DirectoryAccess.Grammar.Reader

/-!
# The grammar of values

Most values are words; those that have parts of their own are read here.
-/
namespace DirectoryAccess.Grammar

open Reader

/-! ### Inherited matches -/

/-- A number without leading zeros. -/
def number : Reader Nat
  | [] => refuse []
  | c :: r =>
    if c = '0' then .read 0 r
    else if c.isDigit then
      .read (Text.numberOf (c :: r.takeWhile Char.isDigit)) (r.dropWhile Char.isDigit)
    else refuse (c :: r)

def level : Reader Nat :=
  labelled "inheritance level" (select number (fun n => (Level.ofNat? n).map (fun _ => n)))

/-- A list of levels in brackets. -/
def levels : Reader (List Nat) := do
  sign "parent["
  let ns ← commit (separated level (sign ","))
  require "]"
  return ns

/-- An attribute and what it is matched with; the first number sign divides them. -/
def attributeMatch : Reader (String × String) :=
  described "attribute#bindtype" (do
    let name ← run1 (· ≠ '#')
    sign "#"
    let value ← select remainder (fun cs => if cs.isEmpty then none else some cs)
    return (String.ofList name, String.ofList value))

/-- Levels, then an attribute and what it is matched with. -/
def inheritance : Reader (List Nat × String × String) := do
  let ns ← levels
  require "."
  let parts ← commit attributeMatch
  return (ns, parts)

/-! ### Filters on modified attributes -/

/-- An operation on attributes as it is written, each term an attribute and a filter. -/
structure OperationTree where
  operation : AttributeOperation
  terms : List (String × String)
  deriving DecidableEq

/-- Puts a character in front of what was taken. -/
def extendTaken (c : Char) (answer : List Char × List Char) : List Char × List Char :=
  (c :: answer.1, answer.2)

/-- The text up to the parenthesis that closes the outermost of so many open ones, and the text
behind it. With none open the next character has to open one. -/
def balancedStart? : Nat → List Char → Option (List Char × List Char)
  | _, [] => none
  | depth, c :: r =>
    if c = '(' then (balancedStart? (depth + 1) r).map (extendTaken c)
    else
      match depth with
      | 0 => none
      | inner + 1 =>
        if c = ')' then
          match inner with
          | 0 => some ([c], r)
          | _ + 1 => (balancedStart? inner r).map (extendTaken c)
        else (balancedStart? (inner + 1) r).map (extendTaken c)

/-- A parenthesis, the one that closes it, and all between them. -/
def balanced : Reader (List Char) :=
  ofFunction (balancedStart? 0)

/-- An attribute and a filter. -/
def filterTerm : Reader (String × String) := do
  let name ← run1 AttributeType.isNameChar
  sign ":"
  let filter ← described "parenthesized filter" (commit balanced)
  return (String.ofList name, String.ofList filter)

/-- Two ampersands between terms. -/
def termSign : Reader Unit := do
  skipGap
  sign "&&"
  skipGap

/-- An operation with its terms. -/
def filterOperation : Reader OperationTree := do
  let operation ← labelled "attribute operation"
    (select (run1 Char.isAlpha) (fun w => AttributeOperation.ofName? (String.ofList w)))
  commit (sign "=")
  let terms ← commit (separated filterTerm termSign)
  return { operation, terms }

/-- A sign between two operations. -/
def operationSign : Reader Char := do
  skipGap
  let c ← oneOf (fun c => c == ',' || c == ';')
  skipGap
  return c

/-- One or more operations, and the sign between the first two. -/
def filterOperations : Reader (List OperationTree × Option Char) := do
  let first ← filterOperation
  let others ← many (do
    let c ← operationSign
    return (c, ← commit filterOperation))
  return (first :: others.map Prod.snd, others.head?.map Prod.fst)

/-! ### Whole texts -/

def wholeFilterOperation : Reader OperationTree := do
  skipGap
  filterOperation

def wholeFilterOperations : Reader (List OperationTree × Option Char) := do
  skipGap
  filterOperations

end DirectoryAccess.Grammar
