import VectorLang.Command.Arguments
import VectorLang.Command.Directory
import VectorLang.Command.Report
import VectorLang.Json
import VectorLang.Machine.Bindings
import VectorLang.Machine.Eval
import VectorLang.Machine.Fault
import VectorLang.Machine.State
import VectorLang.Main
import VectorLang.Proofs.Command.Arguments
import VectorLang.Proofs.Command.Report
import VectorLang.Proofs.Grammar.Admissible
import VectorLang.Proofs.Grammar.Derived
import VectorLang.Proofs.Grammar.Ebnf
import VectorLang.Proofs.Grammar.Language
import VectorLang.Proofs.Grammar.Parameters
import VectorLang.Proofs.Grammar.Productive
import VectorLang.Proofs.Grammar.Readable
import VectorLang.Proofs.Grammar.Rules
import VectorLang.Proofs.Layout
import VectorLang.Proofs.Machine.Arithmetic
import VectorLang.Proofs.Machine.Asking
import VectorLang.Proofs.Machine.Coherence
import VectorLang.Proofs.Machine.Congruence
import VectorLang.Proofs.Machine.Depth
import VectorLang.Proofs.Machine.Evaluates
import VectorLang.Proofs.Machine.Faults
import VectorLang.Proofs.Machine.Frames
import VectorLang.Proofs.Machine.Fuel
import VectorLang.Proofs.Machine.Isolation
import VectorLang.Proofs.Machine.LastStep
import VectorLang.Proofs.Machine.Purity
import VectorLang.Proofs.Machine.Reach
import VectorLang.Proofs.Machine.Rename
import VectorLang.Proofs.Machine.Safety
import VectorLang.Proofs.Machine.Scoping
import VectorLang.Proofs.Machine.StraightLine
import VectorLang.Proofs.Machine.Subscripts
import VectorLang.Proofs.Machine.Termination
import VectorLang.Proofs.Machine.Transition
import VectorLang.Proofs.Machine.Values
import VectorLang.Proofs.Machine.Vectors
import VectorLang.Proofs.Machine.Verbose
import VectorLang.Proofs.Naming
import VectorLang.Proofs.Printing.Expression
import VectorLang.Proofs.Printing.Print
import VectorLang.Proofs.Printing.ReadBack
import VectorLang.Proofs.Printing.RoundTrip
import VectorLang.Proofs.Printing.Spelling
import VectorLang.Proofs.Printing.Statement
import VectorLang.Proofs.Reading.Complete
import VectorLang.Proofs.Reading.Completion
import VectorLang.Proofs.Reading.Layout
import VectorLang.Proofs.Reading.Leftmost
import VectorLang.Proofs.Reading.Lines
import VectorLang.Proofs.Reading.Lookahead
import VectorLang.Proofs.Reading.Phrase
import VectorLang.Proofs.Reading.Places
import VectorLang.Proofs.Reading.Progress
import VectorLang.Proofs.Reading.Shape
import VectorLang.Proofs.Reading.Sound
import VectorLang.Proofs.Reading.SourceLine
import VectorLang.Proofs.Reading.Step
import VectorLang.Proofs.Reading.Text
import VectorLang.Proofs.Reading.Tracks
import VectorLang.Proofs.Reading.Transfer
import VectorLang.Proofs.Reading.Viable
import VectorLang.Proofs.Scope.Agreement
import VectorLang.Proofs.Scope.Calls
import VectorLang.Proofs.Scope.Contents
import VectorLang.Proofs.Scope.Order
import VectorLang.Proofs.Scope.Place
import VectorLang.Proofs.Scope.Rename
import VectorLang.Proofs.Scope.Table
import VectorLang.Proofs.Scope.WellNamed
import VectorLang.Proofs.Success
import VectorLang.Proofs.Text.Lines
import VectorLang.Proofs.Text.Numeral
import VectorLang.Proofs.Token.Composition
import VectorLang.Proofs.Token.Fault
import VectorLang.Proofs.Token.Gap
import VectorLang.Proofs.Token.Joined
import VectorLang.Proofs.Token.Lexeme
import VectorLang.Proofs.Token.Prefix
import VectorLang.Proofs.Token.Session
import VectorLang.Proofs.Token.Spelling
import VectorLang.Proofs.Token.Stream
import VectorLang.Proofs.Token.Tiling
import VectorLang.Proofs.Tree.Children
import VectorLang.Proofs.Tree.Rename
import VectorLang.Proofs.Tree.Shape
import VectorLang.Proofs.Tree.Unlocated
import VectorLang.Proofs.Value.Broadcast
import VectorLang.Proofs.Value.Elements
import VectorLang.Proofs.Value.Proper
import VectorLang.Scope
import VectorLang.Scope.Analysis
import VectorLang.Scope.Event
import VectorLang.Text.Blank
import VectorLang.Text.Digit
import VectorLang.Text.Lines
import VectorLang.Text.Numeral
import VectorLang.Text.Position
import VectorLang.Text.Printable
import VectorLang.Text.Quoted
import VectorLang.Token
import VectorLang.Token.Reader
import VectorLang.Token.Scan
import VectorLang.Token.Stream
import VectorLang.Traceback
import VectorLang.Tree
import VectorLang.Tree.Document
import VectorLang.Tree.Parser
import VectorLang.Value
