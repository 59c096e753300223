/-!
# Blank characters and trimming

Texts are trimmed by the Unicode property `White_Space`. The grammar itself skips only the four
characters of `isGap`, all of them blank.
-/
namespace DirectoryAccess.Text

/-- A character with the Unicode property `White_Space`. -/
def isBlank (c : Char) : Bool :=
  let n := c.toNat
  (9 ≤ n && n ≤ 13) || n == 0x20 || n == 0x85 || n == 0xA0 || n == 0x1680 ||
    (0x2000 ≤ n && n ≤ 0x200A) || n == 0x2028 || n == 0x2029 || n == 0x202F || n == 0x205F ||
    n == 0x3000

/-- A character that may stand between the tokens of an instruction: space, tab, carriage return
and line feed. -/
def isGap (c : Char) : Bool :=
  c == ' ' || c == '\t' || c == '\r' || c == '\n'

def trimStart (cs : List Char) : List Char :=
  cs.dropWhile isBlank

def trimEnd (cs : List Char) : List Char :=
  (cs.reverse.dropWhile isBlank).reverse

def trim (cs : List Char) : List Char :=
  trimEnd (trimStart cs)

def trimmed (s : String) : String :=
  String.ofList (trim s.toList)

/-- What may stand between tokens is blank. -/
theorem isBlank_of_isGap {c : Char} (h : isGap c = true) : isBlank c = true := by
  simp only [isGap, Bool.or_eq_true, beq_iff_eq] at h
  rcases h with ((rfl | rfl) | rfl) | rfl <;> decide

@[simp] theorem toList_trimmed (s : String) : (trimmed s).toList = trim s.toList := by
  simp [trimmed]

@[simp] theorem trim_nil : trim [] = [] := rfl

/-- A text that is not empty and whose two end characters are not blank is its own trimmed form. -/
theorem trim_eq_self {cs : List Char} (start : ∀ c ∈ cs.head?, isBlank c = false)
    (finish : ∀ c ∈ cs.getLast?, isBlank c = false) : trim cs = cs := by
  have left : trimStart cs = cs := by
    cases cs with
    | nil => rfl
    | cons c r => simp [trimStart, start c (by simp)]
  have right : trimEnd cs = cs := by
    rw [trimEnd, List.reverse_eq_iff]
    cases h : cs.reverse with
    | nil => rfl
    | cons c r =>
      have : cs.getLast? = some c := by rw [← List.head?_reverse, h]; rfl
      simp [finish c (by simp [this])]
  rw [trim, left, right]

end DirectoryAccess.Text
