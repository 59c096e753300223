/-!
# Spacing of written rules

A rule is written either with blanks inside its parentheses and around its operators, or tight.
-/
namespace DirectoryAccess

/-- The spacing that new conditions and new stacks start with. -/
structure Layout where
  paddedRules : Bool := true
  paddedStacks : Bool := true
  deriving DecidableEq

/-- The body of a rule, put into parentheses where that is asked for; padding puts a blank inside
each parenthesis. -/
def enclosed (parenthesized padded : Bool) (body : String) : String :=
  match parenthesized, padded with
  | false, _ => body
  | true, true => "( " ++ body ++ " )"
  | true, false => "(" ++ body ++ ")"

def quoted (text : String) : String :=
  "\"" ++ text ++ "\""

theorem toList_quoted (text : String) : (quoted text).toList = '"' :: (text.toList ++ ['"']) := by
  simp [quoted]

end DirectoryAccess
