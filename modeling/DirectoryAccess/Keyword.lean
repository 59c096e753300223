import DirectoryAccess.Comparison

/-!
# Keywords

A condition speaks about the entry that is accessed (a target keyword) or about the client that
asks (a bind keyword). The keyword fixes the operators that it permits and the kind of value that
it is compared with.
-/
namespace DirectoryAccess

/-- A keyword of a target rule. -/
inductive TargetKeyword where
  | target
  | targetTo
  | targetFrom
  | targetAttr
  | targetControl
  | targetScope
  | targetFilter
  | targetAttrFilters
  | extOp
  deriving DecidableEq, Ord

/-- A keyword of a bind rule. -/
inductive BindKeyword where
  | userDn
  | roleDn
  | groupDn
  | ip
  | authMethod
  | dns
  | userAttr
  | groupAttr
  | dayOfWeek
  | ssf
  | timeOfDay
  deriving DecidableEq, Ord

/-- A keyword of either sort; target keywords come first in the order. -/
inductive Keyword where
  | target (keyword : TargetKeyword)
  | bind (keyword : BindKeyword)
  deriving DecidableEq, Ord

/-- What a keyword is compared with. -/
inductive ValueKind where
  | distinguishedNames
  | objectIdentifiers
  | attributeTypes
  | filterOperations
  | scope
  | filter
  | address
  | hostName
  | authentication
  | userAttribute
  | weekdays
  | strength
  | time
  deriving DecidableEq

namespace TargetKeyword

def all : List TargetKeyword :=
  [target, targetTo, targetFrom, targetAttr, targetControl, targetScope, targetFilter,
    targetAttrFilters, extOp]

def name : TargetKeyword → String
  | target => "target"
  | targetTo => "target_to"
  | targetFrom => "target_from"
  | targetAttr => "targetattr"
  | targetControl => "targetcontrol"
  | targetScope => "targetscope"
  | targetFilter => "targetfilter"
  | targetAttrFilters => "targetattrfilters"
  | extOp => "extop"

/-- A second spelling under which `targetAttrFilters` is known. -/
def otherName : String := "targattrfilters"

/-- The keyword with the given spelling, blanks around it and the case of its letters aside. -/
def ofName? (text : String) : Option TargetKeyword :=
  let word := Text.trimmed text
  if Text.sameWord word otherName then some targetAttrFilters
  else Text.findNamed name all word

/-- Scope and filter operations can only be required; the others can be ruled out as well. -/
def permitted : TargetKeyword → List Comparison
  | targetScope | targetAttrFilters => [.equal]
  | _ => [.equal, .unequal]

def valueKind : TargetKeyword → ValueKind
  | target | targetTo | targetFrom => .distinguishedNames
  | targetAttr => .attributeTypes
  | targetControl | extOp => .objectIdentifiers
  | targetScope => .scope
  | targetFilter => .filter
  | targetAttrFilters => .filterOperations

theorem mem_all (k : TargetKeyword) : k ∈ all := by
  cases k <;> decide

end TargetKeyword

namespace BindKeyword

def all : List BindKeyword :=
  [userDn, roleDn, groupDn, ip, authMethod, dns, userAttr, groupAttr, dayOfWeek, ssf, timeOfDay]

def name : BindKeyword → String
  | userDn => "userdn"
  | roleDn => "roledn"
  | groupDn => "groupdn"
  | ip => "ip"
  | authMethod => "authmethod"
  | dns => "dns"
  | userAttr => "userattr"
  | groupAttr => "groupattr"
  | dayOfWeek => "dayofweek"
  | ssf => "ssf"
  | timeOfDay => "timeofday"

/-- The keyword with the given spelling, blanks around it and the case of its letters aside. -/
def ofName? (text : String) : Option BindKeyword :=
  Text.findNamed name all (Text.trimmed text)

/-- Strength and time of day are ordered; of the others one can only ask whether they agree. -/
def permitted : BindKeyword → List Comparison
  | ssf | timeOfDay => Comparison.all
  | _ => [.equal, .unequal]

def valueKind : BindKeyword → ValueKind
  | userDn | roleDn | groupDn => .distinguishedNames
  | ip => .address
  | authMethod => .authentication
  | dns => .hostName
  | userAttr | groupAttr => .userAttribute
  | dayOfWeek => .weekdays
  | ssf => .strength
  | timeOfDay => .time

theorem mem_all (k : BindKeyword) : k ∈ all := by
  cases k <;> decide

end BindKeyword

namespace Keyword

def all : List Keyword :=
  TargetKeyword.all.map target ++ BindKeyword.all.map bind

def name : Keyword → String
  | target k => k.name
  | bind k => k.name

/-- The keyword with the given spelling, blanks around it and the case of its letters aside. -/
def ofName? (text : String) : Option Keyword :=
  ((TargetKeyword.ofName? text).map target).or ((BindKeyword.ofName? text).map bind)

def isTarget : Keyword → Bool
  | target _ => true
  | bind _ => false

def isBind : Keyword → Bool
  | target _ => false
  | bind _ => true

def permitted : Keyword → List Comparison
  | target k => k.permitted
  | bind k => k.permitted

def permits (k : Keyword) (op : Comparison) : Bool :=
  k.permitted.contains op

def valueKind : Keyword → ValueKind
  | target k => k.valueKind
  | bind k => k.valueKind

theorem mem_all (k : Keyword) : k ∈ all := by
  cases k with
  | target k => exact List.mem_append_left _ (List.mem_map_of_mem k.mem_all)
  | bind k => exact List.mem_append_right _ (List.mem_map_of_mem k.mem_all)

theorem isBind_eq_not_isTarget (k : Keyword) : k.isBind = !k.isTarget := by
  cases k <;> rfl

theorem permits_equal (k : Keyword) : k.permits .equal = true := by
  rcases k with k | k <;> cases k <;> decide

theorem ofName?_name (k : Keyword) : ofName? k.name = some k := by
  rcases k with k | k <;> cases k <;> decide

end Keyword

end DirectoryAccess
