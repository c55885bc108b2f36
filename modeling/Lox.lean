import Lox.Character.Alphabetic
import Lox.Character.Class
import Lox.Character.Numeric
import Lox.Decimal.Shortest
import Lox.Decimal.Text
import Lox.Error
import Lox.Grammar.Error
import Lox.Grammar.Expression
import Lox.Grammar.Parse
import Lox.Grammar.Parser
import Lox.Grammar.Statement
import Lox.Grammar.Tree
import Lox.Main
import Lox.Proofs.Grammar.Accept
import Lox.Proofs.Grammar.Bookkeeping
import Lox.Proofs.Grammar.Complete
import Lox.Proofs.Grammar.CompleteStatement
import Lox.Proofs.Grammar.Cursor
import Lox.Proofs.Grammar.CursorSteps
import Lox.Proofs.Grammar.Derivation
import Lox.Proofs.Grammar.Diagnostics
import Lox.Proofs.Grammar.Earliest
import Lox.Proofs.Grammar.Exchange
import Lox.Proofs.Grammar.Fatal
import Lox.Proofs.Grammar.ForLoop
import Lox.Proofs.Grammar.Like
import Lox.Proofs.Grammar.Lockstep
import Lox.Proofs.Grammar.Logic
import Lox.Proofs.Grammar.Lookahead
import Lox.Proofs.Grammar.Notes
import Lox.Proofs.Grammar.Outline
import Lox.Proofs.Grammar.Phrase
import Lox.Proofs.Grammar.Print
import Lox.Proofs.Grammar.Proper
import Lox.Proofs.Grammar.Reading
import Lox.Proofs.Grammar.Recovery
import Lox.Proofs.Grammar.Resume
import Lox.Proofs.Grammar.RoundTrip
import Lox.Proofs.Grammar.Sound
import Lox.Proofs.Grammar.SoundStatement
import Lox.Proofs.Grammar.Unambiguous
import Lox.Proofs.Grammar.Viable
import Lox.Proofs.Grammar.WellFormed
import Lox.Proofs.Run.BigStep
import Lox.Proofs.Run.BigStepComplete
import Lox.Proofs.Run.BigStepSound
import Lox.Proofs.Run.Coupled
import Lox.Proofs.Run.Coupling
import Lox.Proofs.Run.Equality
import Lox.Proofs.Run.Frames
import Lox.Proofs.Run.Growth
import Lox.Proofs.Run.Isolation
import Lox.Proofs.Run.Lexical
import Lox.Proofs.Run.Like
import Lox.Proofs.Run.Logic
import Lox.Proofs.Run.Lookup
import Lox.Proofs.Run.Outcome
import Lox.Proofs.Run.Point
import Lox.Proofs.Run.Proper
import Lox.Proofs.Run.Pruned
import Lox.Proofs.Run.Renamed
import Lox.Proofs.Run.Rooted
import Lox.Proofs.Run.Shallow
import Lox.Proofs.Run.Simulation
import Lox.Proofs.Run.Site
import Lox.Proofs.Run.Time
import Lox.Proofs.Run.Truncation
import Lox.Proofs.Session.Clock
import Lox.Proofs.Session.Depth
import Lox.Proofs.Session.Errors
import Lox.Proofs.Session.Faults
import Lox.Proofs.Session.Frames
import Lox.Proofs.Session.Identity
import Lox.Proofs.Session.Joined
import Lox.Proofs.Session.Printed
import Lox.Proofs.Session.Reached
import Lox.Proofs.Session.Truncation
import Lox.Proofs.Shell.Conversation
import Lox.Proofs.Source.Joined
import Lox.Proofs.Source.Lexeme
import Lox.Proofs.Source.Pieces
import Lox.Proofs.Source.Position
import Lox.Proofs.Source.Spelling
import Lox.Proofs.Source.Split
import Lox.Proofs.Source.Tokens
import Lox.Proofs.Step
import Lox.Run.Eval
import Lox.Run.Fault
import Lox.Run.Heap
import Lox.Run.Machine
import Lox.Run.Operator
import Lox.Run.Output
import Lox.Run.Value
import Lox.Session
import Lox.Shell.Command
import Lox.Shell.Folder
import Lox.Source.Fragment
import Lox.Source.Scan
import Lox.Text.Lines
import Lox.Text.Utf8
import Lox.Token
