import DirectoryAccess.Client.Address
import DirectoryAccess.Client.AttributeMatch
import DirectoryAccess.Client.Authentication
import DirectoryAccess.Client.HostName
import DirectoryAccess.Client.Inheritance
import DirectoryAccess.Client.Strength
import DirectoryAccess.Client.TimeOfDay
import DirectoryAccess.Client.Weekdays
import DirectoryAccess.Comparison
import DirectoryAccess.Condition.Basic
import DirectoryAccess.Condition.Expression
import DirectoryAccess.Condition.Names
import DirectoryAccess.Condition.Operand
import DirectoryAccess.Condition.Reading
import DirectoryAccess.Condition.Values
import DirectoryAccess.Decimal.Numeral
import DirectoryAccess.Decimal.Shortest
import DirectoryAccess.Digest.Basic
import DirectoryAccess.Digest.Blake3
import DirectoryAccess.Directory.AttributeType
import DirectoryAccess.Directory.DistinguishedName
import DirectoryAccess.Directory.Filter
import DirectoryAccess.Directory.FilterOperation
import DirectoryAccess.Directory.ObjectIdentifier
import DirectoryAccess.Directory.SearchScope
import DirectoryAccess.EnumSet
import DirectoryAccess.Grammar.Fault
import DirectoryAccess.Grammar.Instruction
import DirectoryAccess.Grammar.Reader
import DirectoryAccess.Grammar.Rule
import DirectoryAccess.Grammar.Tree
import DirectoryAccess.Grammar.Value
import DirectoryAccess.Grammar.Whole
import DirectoryAccess.Instruction.Basic
import DirectoryAccess.Instruction.Clause
import DirectoryAccess.Instruction.Permission
import DirectoryAccess.Instruction.Reading
import DirectoryAccess.Keyword
import DirectoryAccess.Layout
import DirectoryAccess.Proofs.Assembly
import DirectoryAccess.Proofs.Checks
import DirectoryAccess.Proofs.Condition.Rereading
import DirectoryAccess.Proofs.Grammar.ConditionReading
import DirectoryAccess.Proofs.Grammar.InstructionReading
import DirectoryAccess.Proofs.Grammar.Reading
import DirectoryAccess.Proofs.Grammar.RuleReading
import DirectoryAccess.Proofs.Grammar.Written
import DirectoryAccess.Proofs.Instruction.Confinement
import DirectoryAccess.Proofs.Instruction.Lowering
import DirectoryAccess.Proofs.Instruction.Permission
import DirectoryAccess.Proofs.Instruction.Trees
import DirectoryAccess.Proofs.Instruction.WellFormed
import DirectoryAccess.Proofs.Rereading
import DirectoryAccess.Proofs.Rules.Composed
import DirectoryAccess.Proofs.Rules.Disjuncts
import DirectoryAccess.Proofs.Rules.Grouping
import DirectoryAccess.Proofs.Rules.Lowering
import DirectoryAccess.Proofs.Rules.Meaning
import DirectoryAccess.Proofs.Rules.Scalar
import DirectoryAccess.Proofs.Rules.Spelling
import DirectoryAccess.Proofs.Rules.Trees
import DirectoryAccess.Proofs.Stack.Lawful
import DirectoryAccess.Proofs.Stack.Nesting
import DirectoryAccess.Proofs.Stack.Orderly
import DirectoryAccess.Proofs.Stack.Runs
import DirectoryAccess.Proofs.Storage
import DirectoryAccess.Proofs.Text.Joining
import DirectoryAccess.Proofs.Text.Numeral
import DirectoryAccess.Proofs.Text.Recasing
import DirectoryAccess.Proofs.Text.Trimming
import DirectoryAccess.Proofs.Values.Canonical
import DirectoryAccess.Proofs.Values.Lists
import DirectoryAccess.Proofs.Values.Matches
import DirectoryAccess.Proofs.Values.Operations
import DirectoryAccess.Proofs.Values.Scalars
import DirectoryAccess.ReadError
import DirectoryAccess.RuleError
import DirectoryAccess.Stack.Admission
import DirectoryAccess.Stack.Basic
import DirectoryAccess.Stack.Element
import DirectoryAccess.Stack.Operation
import DirectoryAccess.Stored
import DirectoryAccess.Text.Blank
import DirectoryAccess.Text.LetterCase
import DirectoryAccess.Text.Numeral
import DirectoryAccess.Text.Pieces
import DirectoryAccess.Text.Start
import DirectoryAccess.Proofs.Grammar.Recasing
import DirectoryAccess.Proofs.LetterCase
import DirectoryAccess.Proofs.Instruction.Concatenation
import DirectoryAccess.Proofs.Values.LaidOut
import DirectoryAccess.Proofs.Condition.LaidOut
import DirectoryAccess.Proofs.Rules.LaidOut
import DirectoryAccess.Proofs.Instruction.LaidOut
import DirectoryAccess.Proofs.Condition.Quotable
import DirectoryAccess.Proofs.Condition.Comparands
import DirectoryAccess.Proofs.Condition.ListReading
import DirectoryAccess.Proofs.Condition.OperationLists
import DirectoryAccess.Proofs.Grammar.OperationReading
import DirectoryAccess.Proofs.Values.OperationTexts
import DirectoryAccess.Proofs.Condition.MatchReading
import DirectoryAccess.Proofs.Condition.ValueReading
import DirectoryAccess.Proofs.Rules.ReadMeaning
import DirectoryAccess.Proofs.Rules.SingleCondition
import DirectoryAccess.Proofs.Stack.Negations
import DirectoryAccess.Proofs.Stack.FirstOccurrences
import DirectoryAccess.Proofs.Stack.Replacement
import DirectoryAccess.Proofs.Instruction.Search
import DirectoryAccess.Proofs.Instruction.RightWords
import DirectoryAccess.Proofs.Digest
import DirectoryAccess.Proofs.Values.Groups
