import Offside.Command.Arguments
import Offside.Command.Colour
import Offside.Command.Files
import Offside.Command.Run
import Offside.Compile
import Offside.Lower.Expression
import Offside.Lower.Fault
import Offside.Lower.Journal
import Offside.Lower.Listing
import Offside.Lower.Locals
import Offside.Lower.Script
import Offside.Lower.State
import Offside.Lower.Statement
import Offside.Machine.Frame
import Offside.Machine.Line
import Offside.Machine.Pool
import Offside.Machine.Register
import Offside.Main
import Offside.Proofs.Activation
import Offside.Proofs.Agreement
import Offside.Proofs.Allocation
import Offside.Proofs.Arena
import Offside.Proofs.Balance
import Offside.Proofs.BlackBox
import Offside.Proofs.Blame
import Offside.Proofs.Blocks
import Offside.Proofs.Capture
import Offside.Proofs.Correctness
import Offside.Proofs.Cover
import Offside.Proofs.Crossings
import Offside.Proofs.Depths
import Offside.Proofs.Disguise
import Offside.Proofs.Enclosure
import Offside.Proofs.Evaluation
import Offside.Proofs.Execution
import Offside.Proofs.Expressions
import Offside.Proofs.Frames
import Offside.Proofs.Freshness
import Offside.Proofs.Functions
import Offside.Proofs.Grammar
import Offside.Proofs.Handout
import Offside.Proofs.Idioms
import Offside.Proofs.Immediates
import Offside.Proofs.Indentation
import Offside.Proofs.Initialised
import Offside.Proofs.Integrity
import Offside.Proofs.Joins
import Offside.Proofs.Labels
import Offside.Proofs.Layout
import Offside.Proofs.LineEnds
import Offside.Proofs.Literals
import Offside.Proofs.Locations
import Offside.Proofs.Lookahead
import Offside.Proofs.Makeup
import Offside.Proofs.Marks
import Offside.Proofs.Modules
import Offside.Proofs.Moves
import Offside.Proofs.Names
import Offside.Proofs.Nesting
import Offside.Proofs.Nodes
import Offside.Proofs.Numerals
import Offside.Proofs.Operations
import Offside.Proofs.Origins
import Offside.Proofs.Outcome
import Offside.Proofs.Outline
import Offside.Proofs.Padding
import Offside.Proofs.Phrases
import Offside.Proofs.Piecewise
import Offside.Proofs.Processor
import Offside.Proofs.Progress
import Offside.Proofs.ReadBack
import Offside.Proofs.Recursion
import Offside.Proofs.Registers
import Offside.Proofs.Rendering
import Offside.Proofs.Resolution
import Offside.Proofs.Roles
import Offside.Proofs.RoundTrip
import Offside.Proofs.Scanning
import Offside.Proofs.Script
import Offside.Proofs.Shape
import Offside.Proofs.Showing
import Offside.Proofs.Sight
import Offside.Proofs.Simulation
import Offside.Proofs.Situations
import Offside.Proofs.Slots
import Offside.Proofs.Spelling
import Offside.Proofs.Statements
import Offside.Proofs.Targets
import Offside.Proofs.Termination
import Offside.Proofs.Traces
import Offside.Proofs.Tracking
import Offside.Proofs.Transfers
import Offside.Scope.Arena
import Offside.Scope.Basic
import Offside.Source.Diagnostic
import Offside.Source.Position
import Offside.Text.Alphabet
import Offside.Text.Json
import Offside.Token.Basic
import Offside.Token.Item
import Offside.Token.Layout
import Offside.Token.Lexer
import Offside.Tree.Basic
import Offside.Tree.Dump
import Offside.Tree.Expression
import Offside.Tree.Operator
import Offside.Tree.Reading
import Offside.Tree.Statement
import Offside.Word
