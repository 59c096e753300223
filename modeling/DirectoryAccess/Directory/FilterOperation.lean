import DirectoryAccess.Directory.Filter

/-!
# Filters on modified attributes

A target rule can demand that the values which a client adds to an attribute, or deletes from it,
match a filter. One operation carries such filters for several attributes.
-/
namespace DirectoryAccess

/-- What a client does to the values of an attribute. -/
inductive AttributeOperation where
  | add
  | delete
  deriving DecidableEq

namespace AttributeOperation

def name : AttributeOperation → String
  | add => "add"
  | delete => "delete"

/-- A shorter spelling of deletion. -/
def shortDelete : String := "del"

/-- The operation with the given name, blanks around it and the case of its letters aside. -/
def ofName? (text : String) : Option AttributeOperation :=
  let word := Text.trimmed text
  if Text.sameWord word add.name then some add
  else if Text.sameWord word delete.name || Text.sameWord word shortDelete then some delete
  else none

end AttributeOperation

/-- An operation with the filters that its attributes have to pass. -/
structure FilterOperation where
  operation : AttributeOperation
  filters : Stack AttributeFilter
  deriving DecidableEq

namespace FilterOperation

def noun : String := "attribute filter operation"

def voidMarker : String := "<invalid_attribute_filter_operation>"

/-- The only keyword that is compared with filter operations. -/
def theKeyword : Keyword := .target .targetAttrFilters

/-- An operation without filters yet. -/
def new (operation : AttributeOperation) : FilterOperation where
  operation
  filters := {
    settings := {
      kind := .list
      category := .attributeFilters
      minimum := 1
      delimiter := .doubleAmpersand } }

/-- The operation with one more filter; a filter that is not valid is left out. -/
def push (o : FilterOperation) (f : AttributeFilter) : FilterOperation :=
  { o with filters := o.filters.push (.leaf f) }

/-- The operation with the given filters, those that are not valid left out. -/
def ofFilters (operation : AttributeOperation) (filters : List AttributeFilter) :
    FilterOperation :=
  filters.foldl push (new operation)

def validate (o : FilterOperation) : Except RuleError Unit :=
  o.filters.validate

def render (o : FilterOperation) : String :=
  match o.validate with
  | .ok _ => o.operation.name ++ "=" ++ o.filters.render
  | .error _ => voidMarker

instance : Element FilterOperation where
  noun := noun
  render := render
  validate := validate
  keyword _ := some theKeyword

end FilterOperation

def Stack.filterOperations (layout : Layout := {}) : Stack FilterOperation where
  settings := {
    kind := .list
    category := .values FilterOperation.theKeyword
    minimum := 1
    delimiter := .comma
    padded := layout.paddedStacks }

end DirectoryAccess
