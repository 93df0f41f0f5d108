import BlockScript.CommandLine
import BlockScript.Directory
import BlockScript.Eval
import BlockScript.Fault
import BlockScript.Highlight
import BlockScript.Host.Basic
import BlockScript.Machine
import BlockScript.Machine.Stack
import BlockScript.Numeral.Decimal
import BlockScript.Numeral.Reading
import BlockScript.Parser
import BlockScript.Parser.Expression
import BlockScript.Parser.State
import BlockScript.Parser.Statement
import BlockScript.Report
import BlockScript.Scope
import BlockScript.Script
import BlockScript.Session
import BlockScript.Sink
import BlockScript.Span
import BlockScript.Text.Bytes
import BlockScript.Text.Printable
import BlockScript.Text.Quoted
import BlockScript.Text.Width
import BlockScript.Token
import BlockScript.Token.Piece
import BlockScript.Token.Scan
import BlockScript.Tree
import BlockScript.Tree.Printer
import BlockScript.Value
import BlockScript.Main
import BlockScript.Proofs.Grammar
import BlockScript.Proofs.Completeness
import BlockScript.Proofs.Acceptance
import BlockScript.Proofs.LineBreak
import BlockScript.Proofs.Source
import BlockScript.Proofs.Patterns
import BlockScript.Proofs.Simulation
import BlockScript.Proofs.Changes
import BlockScript.Proofs.Blind
import BlockScript.Proofs.Moved
import BlockScript.Proofs.Returns
import BlockScript.Proofs.InPieces
import BlockScript.Proofs.Extent
import BlockScript.Proofs.FaultPlaces
import BlockScript.Proofs.Coverage
import BlockScript.Proofs.LongestMatch
import BlockScript.Proofs.ParserBlind
import BlockScript.Proofs.Spacing
import BlockScript.Proofs.Renaming
import BlockScript.Proofs.StartOver
import BlockScript.Proofs.Kept
import BlockScript.Proofs.ScopeNames
import BlockScript.Proofs.Lines
import BlockScript.Proofs.OutputLimit
import BlockScript.Proofs.Folding
import BlockScript.Proofs.ForLoop
import BlockScript.Proofs.NextToken
import BlockScript.Proofs.Locality
import BlockScript.Proofs.Stretches
import BlockScript.Proofs.Resuming
import BlockScript.Proofs.Course
import BlockScript.Proofs.Unclosed
import BlockScript.Proofs.WayOut
import BlockScript.Proofs.Isolation
import BlockScript.Proofs.Shape
import BlockScript.Proofs.Exactness
import BlockScript.Proofs.Cursor
import BlockScript.Proofs.InBounds
import BlockScript.Proofs.ReadBack
import BlockScript.Proofs.Moments
import BlockScript.Proofs.Origins
import BlockScript.Proofs.FaultNodes
import BlockScript.Proofs.ScopeDepth
import BlockScript.Proofs.Unnamed
import BlockScript.Proofs.ScopeGraph
import BlockScript.Proofs.LineNumbers
import BlockScript.Proofs.Highlighting
import BlockScript.Proofs.NumberText
import BlockScript.Proofs.Outline
import BlockScript.Proofs.PrintedTrees
