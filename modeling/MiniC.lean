import MiniC.Text.Bytes
import MiniC.Text.Output
import MiniC.Decimal.Shortest
import MiniC.Decimal.Notation
import MiniC.Decimal.Read
import MiniC.Token.Basic
import MiniC.Token.Munch
import MiniC.Token.Scanner
import MiniC.Syntax.Operator
import MiniC.Syntax.Basic
import MiniC.Syntax.Outline
import MiniC.Parser.Failure
import MiniC.Parser.Expr
import MiniC.Parser.Stmt
import MiniC.Register.Instr
import MiniC.Register.Lowering
import MiniC.Stack.Value
import MiniC.Stack.Instr
import MiniC.Stack.Scope
import MiniC.Stack.Machine
import MiniC.Stage
import MiniC.FileTree
import MiniC.Yaml.Reader
import MiniC.Yaml.Scalar
import MiniC.Yaml.Tag
import MiniC.Yaml.Token
import MiniC.Yaml.Node
import MiniC.Suite.Spec
import MiniC.Suite.Load
import MiniC.Command
import MiniC.Main
import MiniC.Proofs.Parser.Expression
import MiniC.Proofs.Parser.Grammar
import MiniC.Proofs.Parser.Locality
import MiniC.Proofs.Parser.Completion
import MiniC.Proofs.Parser.FirstOffence
import MiniC.Proofs.Register.Direct
import MiniC.Proofs.Register.Building
import MiniC.Proofs.Register.Patching
import MiniC.Proofs.Register.Machine
import MiniC.Proofs.Register.Evaluation
import MiniC.Proofs.Register.Initialization
import MiniC.Proofs.Stack.Bindings
import MiniC.Proofs.Stack.Calls
import MiniC.Proofs.Stack.Repetition
import MiniC.Proofs.Token.Lexical
import MiniC.Proofs.Token.Pieces
import MiniC.Proofs.Token.Tiling
import MiniC.Proofs.Token.Separation
import MiniC.Proofs.Source.Grouping
import MiniC.Proofs.Source.Writing
import MiniC.Proofs.Source.RoundTrip
import MiniC.Proofs.Stack.Noninterference
import MiniC.Proofs.Stack.Relocation
import MiniC.Proofs.Text.Slice
import MiniC.Proofs.Token.Positions
import MiniC.Proofs.Parser.Placement
import MiniC.Proofs.Source.Layout
import MiniC.Proofs.Register.Concatenation
import MiniC.Proofs.Parser.Concatenation
import MiniC.Proofs.Token.Lines
import MiniC.Proofs.Text.ByteOrder
import MiniC.Proofs.Stack.Histories
import MiniC.Proofs.Stack.Faults
import MiniC.Proofs.Register.Discipline
import MiniC.Proofs.Text.Runs
import MiniC.Proofs.Text.Unambiguity
import MiniC.Proofs.Decimal.Rounding
import MiniC.Proofs.Decimal.Integers
import MiniC.Proofs.Decimal.ReadBack
import MiniC.Proofs.Register.Listing
import MiniC.Proofs.Syntax.Outlines
import MiniC.Proofs.Stack.Jumps
import MiniC.Proofs.Stack.Postorder
import MiniC.Proofs.Register.Refusals
import MiniC.Proofs.Parser.LongestExpression
import MiniC.Proofs.Parser.EndOfInput
import MiniC.Proofs.Token.Rewriting
import MiniC.Proofs.Register.Need
import MiniC.Proofs.Stack.Arithmetic
import MiniC.Proofs.Stack.Underneath
import MiniC.Proofs.Stack.Branching
import MiniC.Proofs.Stack.Finished
import MiniC.Proofs.Decimal.Denotation
import MiniC.Proofs.Parser.Literals
import MiniC.Proofs.Stack.Comparisons
import MiniC.Proofs.Stack.Reports
import MiniC.Proofs.FileTree
import MiniC.Proofs.Suite.DirectoryOrder
import MiniC.Proofs.Parser.Progress
import MiniC.Proofs.Token.Progress
import MiniC.Proofs.Stack.Forward
import MiniC.Proofs.Command.Arguments
