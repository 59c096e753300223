import DirectoryAccess.Directory.AttributeType

/-!
# Search filters

A filter is one parenthesized expression with something in it. What stands between the parentheses
is not looked at, except that parentheses pair up and no double quote occurs.
-/
namespace DirectoryAccess

/-- A search filter; none at all where the text was refused. -/
structure Filter where
  text : Option String := none
  deriving DecidableEq

namespace Filter

def noun : String := "filter"

def voidMarker : String := "<invalid_filter>"

/-- Why the rest of a filter is refused, with so many parentheses open before it: each closing one
has to have an opening one, the last of them closes the text, and none stays open. -/
def parenthesisFault? : Nat → List Char → Option String
  | 0, [] => none
  | _ + 1, [] => some "unbalanced parentheses"
  | depth, c :: r =>
    if c = '(' then parenthesisFault? (depth + 1) r
    else if c = ')' then
      match depth with
      | 0 => some "unbalanced parentheses"
      | 1 => if r.isEmpty then none else some "more than one top-level expression"
      | depth + 1 => parenthesisFault? depth r
    else parenthesisFault? depth r

/-- The filter in a text, blanks at its ends dropped. -/
def body? (text : String) : Except RuleError String :=
  let body := Text.trim text.toList
  let refuse reason := Except.error (RuleError.badValue noun text reason)
  if body.head? ≠ some '(' ∨ body.getLast? ≠ some ')' ∨ body.length < 3 then
    refuse "must be a non-empty parenthesized expression"
  else if body.contains '"' then refuse "contains a double quote"
  else
    match parenthesisFault? 0 body with
    | some reason => refuse reason
    | none => .ok (String.ofList body)

def ofText? (text : String) : Except RuleError Filter := do
  return ⟨some (← body? text)⟩

/-- The filter in a text, void where the text is refused. -/
def ofText (text : String) : Filter :=
  ⟨(body? text).toOption⟩

def isVoid (f : Filter) : Bool :=
  f.text.isNone

def render (f : Filter) : String :=
  f.text.getD voidMarker

def validate (f : Filter) : Except RuleError Unit :=
  if f.isVoid then .error (.absent noun) else .ok ()

end Filter

/-- A filter on the values of one attribute. -/
structure AttributeFilter where
  attributeType : AttributeType
  filter : Filter
  deriving DecidableEq

namespace AttributeFilter

def noun : String := "attribute filter"

def voidMarker : String := "<invalid_attribute_filter>"

/-- The attribute filter with the attribute type and the filter in two texts. -/
def ofTexts (name filter : String) : AttributeFilter :=
  { attributeType := .ofText name, filter := .ofText filter }

/-- The filter is about one attribute, so the star is refused. -/
def validate (f : AttributeFilter) : Except RuleError Unit := do
  f.attributeType.validate
  if f.attributeType = .every then
    throw (.badValue noun "*" "a concrete attribute type is required")
  f.filter.validate

def render (f : AttributeFilter) : String :=
  match f.validate with
  | .ok _ => f.attributeType.render ++ ":" ++ f.filter.render
  | .error _ => voidMarker

instance : Element AttributeFilter where
  noun := noun
  render := render
  validate := validate

end AttributeFilter

end DirectoryAccess
