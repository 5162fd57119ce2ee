import ScriptTree.CommandLine
import ScriptTree.Decimal
import ScriptTree.Grammar
import ScriptTree.Main
import ScriptTree.Number
import ScriptTree.Parser
import ScriptTree.Parser.Calls
import ScriptTree.Parser.Operand
import ScriptTree.Parser.Operator
import ScriptTree.Parser.Run
import ScriptTree.Parser.Statement
import ScriptTree.Piece
import ScriptTree.Position
import ScriptTree.Report
import ScriptTree.Scope
import ScriptTree.Source
import ScriptTree.Symbol
import ScriptTree.SyntaxError
import ScriptTree.Text.Blank
import ScriptTree.Text.Field
import ScriptTree.Text.Hidden
import ScriptTree.Text.Quoted
import ScriptTree.Text.StringLiteral
import ScriptTree.Token
import ScriptTree.Tree
import ScriptTree.Tree.Equality
import ScriptTree.Tree.Outline
import ScriptTree.Tree.Script
import ScriptTree.Tree.Walk
import ScriptTree.Proofs.Reading
import ScriptTree.Proofs.Reading.Runs
import ScriptTree.Proofs.Frames
import ScriptTree.Proofs.Halting
import ScriptTree.Proofs.Slices
import ScriptTree.Proofs.Bare
import ScriptTree.Proofs.Language
import ScriptTree.Proofs.Language.Sound
import ScriptTree.Proofs.Language.Complete
import ScriptTree.Proofs.Precedence
import ScriptTree.Proofs.Numerals
import ScriptTree.Proofs.Spelling
import ScriptTree.Proofs.Written
import ScriptTree.Proofs.Rereading
import ScriptTree.Proofs.Schema
import ScriptTree.Proofs.Lookahead
import ScriptTree.Proofs.ScopeRuns
import ScriptTree.Proofs.Steps
import ScriptTree.Proofs.Unread
import ScriptTree.Proofs.Foresight
import ScriptTree.Proofs.Shadowing
import ScriptTree.Proofs.Pairing
import ScriptTree.Proofs.Layout
import ScriptTree.Proofs.TextLines
import ScriptTree.Proofs.Caret
import ScriptTree.Proofs.Composition
import ScriptTree.Proofs.SpelledTrees
import ScriptTree.Proofs.PrintedNumbers
import ScriptTree.Proofs.Declarations
import ScriptTree.Proofs.SourceOrder
import ScriptTree.Proofs.Nesting
import ScriptTree.Proofs.Registrations
import ScriptTree.Proofs.OperatorTables
import ScriptTree.Proofs.Scanning
import ScriptTree.Proofs.Lines
import ScriptTree.Proofs.StringLiterals
import ScriptTree.Proofs.Unraised
import ScriptTree.Proofs.Labels
import ScriptTree.Proofs.RenamedScopes
import ScriptTree.Proofs.Renaming
import ScriptTree.Proofs.InertLabels
import ScriptTree.Proofs.Outlines
import ScriptTree.Proofs.RoundTrip
