import DirectoryAccess.EnumSet
import DirectoryAccess.RuleError
import DirectoryAccess.Text.Blank

/-!
# Permissions

A permission grants or withholds a set of rights. The word for all rights leaves out the right to
act for somebody else.
-/
namespace DirectoryAccess

/-- Something that a client may do to an entry. -/
inductive Right where
  | read
  | write
  | add
  | delete
  | search
  | compare
  | selfWrite
  | proxy
  | import
  | export
  deriving DecidableEq, Ord

namespace Right

def all : List Right :=
  [read, write, add, delete, search, compare, selfWrite, proxy, .import, .export]

def name : Right → String
  | read => "read"
  | write => "write"
  | add => "add"
  | delete => "delete"
  | search => "search"
  | compare => "compare"
  | selfWrite => "selfwrite"
  | proxy => "proxy"
  | .import => "import"
  | .export => "export"

/-- The right with the given name, blanks around it and the case of its letters aside. -/
def ofName? (text : String) : Option Right :=
  Text.findNamed name all (Text.trimmed text)

theorem mem_all (r : Right) : r ∈ all := by
  cases r <;> decide

theorem ofName?_name (r : Right) : ofName? r.name = some r := by
  cases r <;> decide

end Right

instance : Enumerated Right where
  all := Right.all
  mem_all := Right.mem_all
  nodup_all := by decide

/-- Whether a permission grants or withholds its rights. -/
inductive Disposition where
  | allow
  | deny
  deriving DecidableEq

namespace Disposition

def all : List Disposition := [allow, deny]

def name : Disposition → String
  | allow => "allow"
  | deny => "deny"

end Disposition

/-- A set of rights to grant or to withhold; a void permission says neither. -/
structure Permission where
  disposition : Option Disposition := none
  rights : EnumSet Right := {}
  deriving DecidableEq

namespace Permission

def noun : String := "permission"

def voidMarker : String := "<invalid_permission>"

/-- The rights that the word for all of them covers. -/
def common : EnumSet Right :=
  .ofList (Right.all.filter (· ≠ .proxy))

def ofRights (d : Disposition) (rights : List Right) : Permission :=
  { disposition := some d, rights := .ofList rights }

/-- Grants all that the word for all rights covers. -/
def allowAll : Permission := { disposition := some .allow, rights := common }

/-- Withholds all that the word for all rights covers. -/
def denyAll : Permission := { disposition := some .deny, rights := common }

def insert (p : Permission) (r : Right) : Permission :=
  { p with rights := p.rights.insert r }

def erase (p : Permission) (r : Right) : Permission :=
  { p with rights := p.rights.erase r }

/-- The permission with all that the word for all rights covers. -/
def insertCommon (p : Permission) : Permission :=
  { p with rights := p.rights.union common }

def contains (p : Permission) (r : Right) : Bool :=
  p.rights.contains r

def isVoid (p : Permission) : Bool :=
  p.disposition.isNone

def validate (p : Permission) : Except RuleError Unit :=
  if p.isVoid then .error (.absent noun) else .ok ()

/-- The words for a set of rights, as few as will do. -/
def words (rights : EnumSet Right) : List String :=
  if common.subset rights then
    "all" :: (if rights.contains .proxy then [Right.proxy.name] else [])
  else if rights.isEmpty then ["none"]
  else rights.toList.map Right.name

def render (p : Permission) : String :=
  match p.disposition with
  | some d => d.name ++ "(" ++ ",".intercalate (words p.rights) ++ ")"
  | none => voidMarker

end Permission

end DirectoryAccess
