import DirectoryAccess.Grammar.Reader
import DirectoryAccess.Grammar.Tree

/-!
# The grammar of conditions and bind rules

Of the three connectives negation binds strongest and disjunction weakest. Chains of one connective
are read as one conjunction or disjunction of all their members.
-/
namespace DirectoryAccess.Grammar

open Reader

/-- A character of a word: an ASCII letter or digit, or an underscore. -/
def isWordChar (c : Char) : Bool :=
  c.isAlphanum || c == '_'

def wordEnd : Reader Unit :=
  notBefore isWordChar

/-- The word between the members of a conjunction, with the gap in front of it. -/
def andWord : Reader Unit := do
  skipGap
  word "AND"
  wordEnd

/-- The word between the members of a disjunction, with the gap in front of it. -/
def orWord : Reader Unit := do
  skipGap
  word "OR"
  wordEnd

/-- The word in front of what is negated. -/
def notWord : Reader Unit := do
  word "NOT"
  wordEnd

/-- A keyword, in any case of letters. -/
def keyword : Reader Keyword :=
  labelled "keyword" (select (run1 isWordChar) (fun w => Keyword.ofName? (String.ofList w)))

/-- The operators in the order in which they are tried: one that begins another comes after it. -/
def operatorsBySign : List Comparison :=
  [.greaterOrEqual, .lessOrEqual, .unequal, .equal, .greater, .less]

def operator : Reader Comparison :=
  labelled "comparison operator"
    (firstOf (operatorsBySign.map (fun op => do sign op.symbol; return op)))

/-- A text between double quotes; there is no way to write a double quote in it. -/
def quotedText : Reader String := do
  sign "\""
  let text ← run (· ≠ '"')
  require "\""
  return String.ofList text

/-- Two bars between the values of a list. -/
def valueBar : Reader Unit := do
  skipGap
  sign "||"
  skipGap

/-- One or more quoted values. -/
def quotedValues : Reader (List String) :=
  separated quotedText valueBar

/-- A comparison without parentheses. -/
def condition : Reader ConditionTree := do
  let keyword ← keyword
  let padded ← gap
  let operator ← commit operator
  skipGap
  let values ← described "quoted value" (commit quotedValues)
  return .of keyword operator values padded

/-- A comparison in parentheses. -/
def targetRule : Reader ConditionTree := do
  sign "("
  skipGap
  let tree ← condition
  skipGap
  require ")"
  return tree

/-- A rule in parentheses, given how to read the rule inside. -/
def group (rule : Reader RuleTree) : Reader RuleTree := do
  sign "("
  let padded ← gap
  let inner ← commit rule
  skipGap
  require ")"
  return .group padded inner

/-- A rule that is no chain and no negation, given how to read the rule inside parentheses. -/
def primary (rule : Reader RuleTree) : Reader RuleTree := do
  skipGap
  described "bind rule" (orElse (group rule) (do return .condition (← condition)))

/-- One member, or a chain of several joined by the connective. -/
def chain (connective : Reader Unit) (member : Reader RuleTree)
    (join : List RuleTree → RuleTree) : Reader RuleTree := do
  let first ← member
  let others ← many (do connective; commit member)
  return if others.isEmpty then first else join (first :: others)

/-- A whole rule, given how to read the members of its conjunctions. -/
def ruleOf (member : Reader RuleTree) : Reader RuleTree :=
  chain orWord (chain andWord member .and) .or

/-- A member of a conjunction in which negations and parentheses go at most so deep. -/
def member : Nat → Reader RuleTree
  | 0 => refuse
  | depth + 1 => do
    skipGap
    match ← optional notWord with
    | some _ => return .not (← commit (member depth))
    | none => primary (ruleOf (member depth))

/-- A bind rule. Each negation and each parenthesis takes a character, so nothing goes deeper than
the text is long. -/
def rule : Reader RuleTree := fun input =>
  ruleOf (member (input.length + 1)) input

/-! ### Whole texts -/

/-- A condition with or without parentheses, and which of the two. -/
def wholeCondition : Reader (ConditionTree × Bool) := do
  skipGap
  let answer ← orElse (do return (← targetRule, true)) (do return (← condition, false))
  skipGap
  return answer

/-- Target rules, one after the other, and the gaps behind them. -/
def targetRules : Reader (List ConditionTree) :=
  many (do
    let tree ← targetRule
    skipGap
    return tree)

def wholeTargetRules : Reader (List ConditionTree) := do
  skipGap
  targetRules

def wholeRule : Reader RuleTree := do
  let tree ← rule
  skipGap
  return tree

end DirectoryAccess.Grammar
