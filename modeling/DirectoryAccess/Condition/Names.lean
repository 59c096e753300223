import DirectoryAccess.ReadError

/-!
# Operators and keywords in texts
-/
namespace DirectoryAccess

def Comparison.read (text : String) : Except ReadError Comparison :=
  match ofName? text with
  | some op => .ok op
  | none => .error { cause := .unknown "comparison operator" text }

def Keyword.read (text : String) : Except ReadError Keyword :=
  match ofName? text with
  | some k => .ok k
  | none => .error { cause := .unknown "keyword" text }

end DirectoryAccess
