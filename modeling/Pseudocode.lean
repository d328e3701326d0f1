import Pseudocode.Block
import Pseudocode.Conversion
import Pseudocode.DataType
import Pseudocode.Diagnostic
import Pseudocode.Event
import Pseudocode.Expr
import Pseudocode.Header
import Pseudocode.Interpolation
import Pseudocode.Line
import Pseudocode.Name
import Pseudocode.Nesting.Basic
import Pseudocode.Nesting.Braces
import Pseudocode.Nesting.Indentation
import Pseudocode.Options
import Pseudocode.Options.Json
import Pseudocode.Pattern
import Pseudocode.Proofs.ArithmeticReading
import Pseudocode.Proofs.ArithmeticSpelling
import Pseudocode.Proofs.BalancedNesting
import Pseudocode.Proofs.BlockStack
import Pseudocode.Proofs.BraceChains
import Pseudocode.Proofs.BraceOwnership
import Pseudocode.Proofs.BracedLayout
import Pseudocode.Proofs.BracedRendering
import Pseudocode.Proofs.BracketNesting
import Pseudocode.Proofs.BracketReading
import Pseudocode.Proofs.BrokenLines
import Pseudocode.Proofs.CallParentheses
import Pseudocode.Proofs.CallSites
import Pseudocode.Proofs.CapitalNames
import Pseudocode.Proofs.ClassFields
import Pseudocode.Proofs.ClosingStages
import Pseudocode.Proofs.CodeSegments
import Pseudocode.Proofs.CommentMarks
import Pseudocode.Proofs.CompoundAssignments
import Pseudocode.Proofs.CountingHeaders
import Pseudocode.Proofs.CountingLoops
import Pseudocode.Proofs.DialectIndependence
import Pseudocode.Proofs.EncodedPieces
import Pseudocode.Proofs.ExpressionCalls
import Pseudocode.Proofs.FormulaSpelling
import Pseudocode.Proofs.HeaderBraces
import Pseudocode.Proofs.HeaderPatching
import Pseudocode.Proofs.IndentationDepth
import Pseudocode.Proofs.IndentationStacks
import Pseudocode.Proofs.IndentedRendering
import Pseudocode.Proofs.InertLines
import Pseudocode.Proofs.InterpolatedStrings
import Pseudocode.Proofs.JoinedOperands
import Pseudocode.Proofs.Journal
import Pseudocode.Proofs.LineNumbers
import Pseudocode.Proofs.LineOrigins
import Pseudocode.Proofs.LineReading
import Pseudocode.Proofs.ListLiterals
import Pseudocode.Proofs.LiteralAssignments
import Pseudocode.Proofs.LiteralGrammar
import Pseudocode.Proofs.LiteralsKept
import Pseudocode.Proofs.Lockstep
import Pseudocode.Proofs.OperatorSpelling
import Pseudocode.Proofs.OutsideLiterals
import Pseudocode.Proofs.Passage
import Pseudocode.Proofs.PatternContext
import Pseudocode.Proofs.PatternReading
import Pseudocode.Proofs.PatternReplacing
import Pseudocode.Proofs.PatternWays
import Pseudocode.Proofs.PowerCalls
import Pseudocode.Proofs.PreparedCalls
import Pseudocode.Proofs.QuotedText
import Pseudocode.Proofs.RangeLoops
import Pseudocode.Proofs.RecordSurvey
import Pseudocode.Proofs.RecordTypes
import Pseudocode.Proofs.RespelledDelimiters
import Pseudocode.Proofs.ReturnMarks
import Pseudocode.Proofs.RoutineHeaders
import Pseudocode.Proofs.RoutineNames
import Pseudocode.Proofs.RoutineSpelling
import Pseudocode.Proofs.RuleContract
import Pseudocode.Proofs.RuleEffects
import Pseudocode.Proofs.RuleForms
import Pseudocode.Proofs.RuleOpenings
import Pseudocode.Proofs.RulePlacement
import Pseudocode.Proofs.RuleRuns
import Pseudocode.Proofs.ScannerAgreement
import Pseudocode.Proofs.SegmentMapping
import Pseudocode.Proofs.SeparatedParts
import Pseudocode.Proofs.Session
import Pseudocode.Proofs.StatementTree
import Pseudocode.Proofs.SubscriptPlaces
import Pseudocode.Proofs.SubscriptedOperands
import Pseudocode.Proofs.SubscriptsAndSums
import Pseudocode.Proofs.SurveyedRoutines
import Pseudocode.Proofs.TerminatorAlignment
import Pseudocode.Proofs.TextOutsideComments
import Pseudocode.Proofs.TupleAssignments
import Pseudocode.Proofs.UnsupportedReports
import Pseudocode.Proofs.VariableOccurrences
import Pseudocode.Proofs.VariableValues
import Pseudocode.Proofs.Weaving
import Pseudocode.Proofs.WholeConversions
import Pseudocode.Rule.Basic
import Pseudocode.Rule.Book
import Pseudocode.Rule.Braced.Control
import Pseudocode.Rule.Braced.Statement
import Pseudocode.Rule.Indented.Assignment
import Pseudocode.Rule.Indented.Control
import Pseudocode.Rule.Indented.Routine
import Pseudocode.Rule.Indented.Statement
import Pseudocode.Rule.Phrase
import Pseudocode.Snapshot
import Pseudocode.State
import Pseudocode.Style
import Pseudocode.Survey
import Pseudocode.Symbols
import Pseudocode.Table
import Pseudocode.Text.Basic
import Pseudocode.Text.Letter
import Pseudocode.Text.Number
import Pseudocode.Text.Numeral
import Pseudocode.Text.Quoting
import Pseudocode.Text.UpperCase
import Pseudocode.Text.WordChar
