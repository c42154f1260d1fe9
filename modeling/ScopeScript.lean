import ScopeScript.Number.Decimal
import ScopeScript.Number.Text
import ScopeScript.Text.Utf8
import ScopeScript.Text.Blank
import ScopeScript.Token
import ScopeScript.Token.Piece
import ScopeScript.Token.Scan
import ScopeScript.Place
import ScopeScript.Tree.Expr
import ScopeScript.Tree.Stmt
import ScopeScript.Tree.Printer
import ScopeScript.Tree.Dump
import ScopeScript.Parse.Error
import ScopeScript.Parse.Cursor
import ScopeScript.Parse.Expression
import ScopeScript.Parse.Statement
import ScopeScript.Parse.Program
import ScopeScript.Scope.Findings
import ScopeScript.Scope.Resolve
import ScopeScript.Table
import ScopeScript.Store
import ScopeScript.Value
import ScopeScript.Machine.Operator
import ScopeScript.Machine.State
import ScopeScript.Machine.Evaluate
import ScopeScript.Diagnostic
import ScopeScript.Session
import ScopeScript.CommandLine
import ScopeScript.Main
import ScopeScript.Proofs.History
import ScopeScript.Proofs.Lexical.State
import ScopeScript.Proofs.Lexical.Evaluate
import ScopeScript.Proofs.Lexical.Session
import ScopeScript.Proofs.Tree.Shape
import ScopeScript.Proofs.Scope.Scoped
import ScopeScript.Proofs.Table
import ScopeScript.Proofs.Simulation.World
import ScopeScript.Proofs.Simulation.Relation
import ScopeScript.Proofs.Simulation.Names
import ScopeScript.Proofs.Simulation.Calls
import ScopeScript.Proofs.Parse.Numbering
import ScopeScript.Proofs.Simulation.Evaluate
import ScopeScript.Proofs.Checks
import ScopeScript.Proofs.Simulation.Session
import ScopeScript.Proofs.Parse.Carry
import ScopeScript.Proofs.Lexical.Relabel
import ScopeScript.Proofs.Scope.Relabel
import ScopeScript.Proofs.Lexical.Natural
import ScopeScript.Proofs.Lexical.Renumber
import ScopeScript.Proofs.Rejected
import ScopeScript.Proofs.Scoping
import ScopeScript.Proofs.Token.Join
import ScopeScript.Proofs.Parse.Join
import ScopeScript.Proofs.Lexical.Moved
import ScopeScript.Proofs.Scope.Lines
import ScopeScript.Proofs.Simulation.Lines
import ScopeScript.Proofs.FailingToken
import ScopeScript.Proofs.Joined
import ScopeScript.Proofs.Grammar.Expression
import ScopeScript.Proofs.Grammar.Statement
import ScopeScript.Proofs.Grammar.Sound
import ScopeScript.Proofs.Grammar.Complete
import ScopeScript.Proofs.Grammar.Accepts
import ScopeScript.Proofs.Token.Longest
import ScopeScript.Proofs.Token.Scanner
import ScopeScript.Proofs.Token.Tiles
import ScopeScript.Proofs.Tree.Nodes
import ScopeScript.Proofs.Scope.Uses
import ScopeScript.Proofs.Parse.Rising
import ScopeScript.Proofs.Frames.Heap
import ScopeScript.Proofs.Identity
import ScopeScript.Proofs.Frames.Focus
import ScopeScript.Proofs.Operators
import ScopeScript.Proofs.Frames.Growth
import ScopeScript.Proofs.Restored
import ScopeScript.Proofs.Scope.Marks
import ScopeScript.Proofs.Scope.Standing
import ScopeScript.Proofs.Scope.Walk
import ScopeScript.Proofs.Parse.Places
import ScopeScript.Proofs.Diagnostics
import ScopeScript.Proofs.Grammar.Names
import ScopeScript.Proofs.Violations
import ScopeScript.Proofs.Distances
import ScopeScript.Proofs.Rename.Code
import ScopeScript.Proofs.Rename.Findings
import ScopeScript.Proofs.Rename.Values
import ScopeScript.Proofs.Rename.Evaluate
import ScopeScript.Proofs.Rename.Position
import ScopeScript.Proofs.Renaming
import ScopeScript.Proofs.Scope.Resolver
import ScopeScript.Proofs.Scope.Reuse
import ScopeScript.Proofs.Scope.Agreement
import ScopeScript.Proofs.Resolving
import ScopeScript.Proofs.Frames.Names
import ScopeScript.Proofs.Globals
import ScopeScript.Proofs.Receiver.Placed
import ScopeScript.Proofs.Receiver.Watch
import ScopeScript.Proofs.Receiver.State
import ScopeScript.Proofs.Receiver.Steps
import ScopeScript.Proofs.Receiver.Evaluate
import ScopeScript.Proofs.Receivers
import ScopeScript.Proofs.FrameLaws
import ScopeScript.Proofs.Trace.Closed
import ScopeScript.Proofs.Trace.Session
import ScopeScript.Proofs.Trace.Cut
import ScopeScript.Proofs.Sinks
import ScopeScript.Proofs.Lexical.Fuel
import ScopeScript.Proofs.Lexical.ForLoop
import ScopeScript.Proofs.Simulation.Moments
import ScopeScript.Proofs.ForLoops
import ScopeScript.Proofs.Member.Classes
import ScopeScript.Proofs.Member.Parameters
import ScopeScript.Proofs.Member.Stage
import ScopeScript.Proofs.Member.Evaluate
import ScopeScript.Proofs.Members
import ScopeScript.Proofs.Number.Shortest
import ScopeScript.Proofs.Number.Numeral
import ScopeScript.Proofs.Tree.Sexp
import ScopeScript.Proofs.Printer
import ScopeScript.Proofs.Parse.Buffer
import ScopeScript.Proofs.Parse.View
import ScopeScript.Proofs.Parse.Track
import ScopeScript.Proofs.Parse.Loop
import ScopeScript.Proofs.Bounds
import ScopeScript.Proofs.Token.Layout
import ScopeScript.Proofs.Layout
import ScopeScript.Proofs.Grammar.Ebnf
import ScopeScript.Proofs.Foresee.Rules
import ScopeScript.Proofs.Foresee.Expression
import ScopeScript.Proofs.Foresee.Statement
import ScopeScript.Proofs.FirstError
import ScopeScript.Proofs.Lines
import ScopeScript.Proofs.Decoding
import ScopeScript.Proofs.Commands
