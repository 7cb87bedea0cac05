import FilterQuery.Mode
import FilterQuery.Logged
import FilterQuery.Token
import FilterQuery.Token.Rule
import FilterQuery.Token.Piece
import FilterQuery.Token.Scan
import FilterQuery.Node
import FilterQuery.Node.Preorder
import FilterQuery.Node.Outline
import FilterQuery.Node.Equality
import FilterQuery.Expression
import FilterQuery.Expression.Diagnostic
import FilterQuery.Expression.Balance
import FilterQuery.Expression.Cursor
import FilterQuery.Expression.Parse.Filter
import FilterQuery.Expression.Parse.Chain
import FilterQuery.Expression.Parse
import FilterQuery.Query
import FilterQuery.Json
import FilterQuery.Json.Export
import FilterQuery.Command
import FilterQuery.CommandLine
import FilterQuery.Main
import FilterQuery.Proofs.FilterReading
import FilterQuery.Proofs.ExpressionReading
import FilterQuery.Proofs.Grammar
import FilterQuery.Proofs.Records
import FilterQuery.Proofs.Leniency
import FilterQuery.Proofs.Lexeme
import FilterQuery.Proofs.Parentheses
import FilterQuery.Proofs.Leaves
import FilterQuery.Proofs.TreeShape
import FilterQuery.Proofs.Unparsing
import FilterQuery.Proofs.Noninterference
import FilterQuery.Proofs.ChainAppend
import FilterQuery.Proofs.ListFault
import FilterQuery.Proofs.Failing
import FilterQuery.Proofs.Viability
import FilterQuery.Proofs.Joining
import FilterQuery.Proofs.TreeWalks
import FilterQuery.Proofs.TreeExport
import FilterQuery.Proofs.JsonReading
import FilterQuery.Proofs.ExportReading
import FilterQuery.Proofs.Rendering
import FilterQuery.Proofs.Warnings
import FilterQuery.Proofs.Commands
import FilterQuery.Proofs.ArgumentRules
import FilterQuery.Proofs.Delivery
import FilterQuery.Proofs.Locality
import FilterQuery.Proofs.NestedChain
import FilterQuery.Proofs.ListGrammar
import FilterQuery.Proofs.Continuation
import FilterQuery.Proofs.ParenHint
import FilterQuery.Proofs.ScanLog
import FilterQuery.Proofs.ParseLog
import FilterQuery.Proofs.Runs
import FilterQuery.Proofs.Window
import FilterQuery.Proofs.WindowScan
import FilterQuery.Proofs.ParserSteps
import FilterQuery.Proofs.ParserReading
import FilterQuery.Proofs.ParserRun
import FilterQuery.Proofs.Guards
