import DirectoryAccess.Grammar.Reader
import DirectoryAccess.ReadError

/-!
# Reading a whole text
-/
namespace DirectoryAccess.Grammar.Reader

/-- The value of a whole text, or an error that shows where the text goes wrong. -/
def readText {α : Type} (p : Reader α) (text : List Char) : Except ReadError α :=
  (p.readAll text).mapError (fun f => { cause := .malformed text f })

end DirectoryAccess.Grammar.Reader
