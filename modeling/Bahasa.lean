import Bahasa.Text.Blank
import Bahasa.Text.Digit
import Bahasa.Text.Printable
import Bahasa.Text.Quoted
import Bahasa.Decimal.Binary
import Bahasa.Decimal.Shortest
import Bahasa.Decimal.Reading
import Bahasa.Decimal.Writing
import Bahasa.Position
import Bahasa.Token.Kind
import Bahasa.Token.Basic
import Bahasa.Token.Lexeme
import Bahasa.Token.Scan
import Bahasa.Node.Label
import Bahasa.Node.Basic
import Bahasa.Node.Describe
import Bahasa.Parser.Complaint
import Bahasa.Parser.Basic
import Bahasa.Parser.Expression
import Bahasa.Parser.Statement
import Bahasa.Value
import Bahasa.Cause
import Bahasa.Store
import Bahasa.Operator
import Bahasa.Eval.World
import Bahasa.Eval.Native
import Bahasa.Eval.Expression
import Bahasa.Eval.Call
import Bahasa.Eval.Statement
import Bahasa.Eval.Basic
import Bahasa.Error
import Bahasa.Session
import Bahasa.Settings
import Bahasa.Highlight
import Bahasa.Console.Command
import Bahasa.Console.Editing
import Bahasa.Console.Loop
import Bahasa.CommandLine
import Bahasa.Main
import Bahasa.Proofs.Grammar
import Bahasa.Proofs.Shape
import Bahasa.Proofs.Legible
import Bahasa.Proofs.Edges
import Bahasa.Proofs.Node.Places
import Bahasa.Proofs.Printing
import Bahasa.Proofs.Token.Numeral
import Bahasa.Proofs.Parser.Success
import Bahasa.Proofs.Parser.Opening
import Bahasa.Proofs.Parser.Soundness
import Bahasa.Proofs.Parser.Levels
import Bahasa.Proofs.Parser.Moving
import Bahasa.Proofs.Eval.Invariant
import Bahasa.Proofs.Eval.Safety
import Bahasa.Proofs.Session.Safety
import Bahasa.Proofs.Parser.Followed
import Bahasa.Proofs.Eval.Transport
import Bahasa.Proofs.Eval.Passage
import Bahasa.Proofs.Eval.Carrying
import Bahasa.Proofs.Token.Lines
import Bahasa.Proofs.Parser.Seam
import Bahasa.Proofs.Parser.Joined
import Bahasa.Proofs.Eval.Sequel
import Bahasa.Proofs.Session.Joined
import Bahasa.Proofs.Value.Like
import Bahasa.Proofs.Eval.Likeness
import Bahasa.Proofs.Eval.Alike
import Bahasa.Proofs.Store.Growth
import Bahasa.Proofs.Store.Walk
import Bahasa.Proofs.Session.Growth
import Bahasa.Proofs.Store.Twins
import Bahasa.Proofs.Eval.Isolation
import Bahasa.Proofs.Token.Language
import Bahasa.Proofs.Token.Segmentation
import Bahasa.Proofs.Decimal.Written
import Bahasa.Proofs.Token.Spelling
import Bahasa.Proofs.Value.Literal
import Bahasa.Proofs.Parser.Literal
import Bahasa.Proofs.Session.Rendered
import Bahasa.Proofs.Parser.Foresight
import Bahasa.Proofs.Parser.Completion
import Bahasa.Proofs.Parser.Earliest
import Bahasa.Proofs.Node.Regular
import Bahasa.Proofs.Eval.Pairing
import Bahasa.Proofs.Eval.Paired
import Bahasa.Proofs.Eval.Routine
import Bahasa.Proofs.Eval.Declaring
import Bahasa.Proofs.Eval.Marking
import Bahasa.Proofs.Session.Moving
import Bahasa.Proofs.Token.Order
import Bahasa.Proofs.Session.Origin
import Bahasa.Proofs.Session.Layout
import Bahasa.Proofs.Console.Brackets
import Bahasa.Proofs.Store.Scope
import Bahasa.Proofs.Eval.Limits
import Bahasa.Proofs.Parser.Desk
import Bahasa.Proofs.Session.Kept
import Bahasa.Proofs.Token.Spaced
import Bahasa.Proofs.Store.Grounding
import Bahasa.Proofs.Eval.Grounding
import Bahasa.Proofs.Session.Founded
import Bahasa.Proofs.Eval.Records
import Bahasa.Proofs.CommandLine.Operands
import Bahasa.Proofs.CommandLine.Logging
import Bahasa.Proofs.Token.Leading
import Bahasa.Proofs.Text.Trimmed
import Bahasa.Proofs.Console.Sitting
import Bahasa.Proofs.Token.Continuation
import Bahasa.Proofs.Token.Placement
import Bahasa.Proofs.Eval.Reproducing
import Bahasa.Proofs.Eval.Reproduced
import Bahasa.Proofs.Eval.Plain
import Bahasa.Proofs.Parser.Completeness
import Bahasa.Proofs.Parser.Printed
import Bahasa.Proofs.Node.Preorder
import Bahasa.Proofs.Parser.Keeping
import Bahasa.Proofs.Parser.Course
import Bahasa.Proofs.Parser.Ending
import Bahasa.Proofs.Eval.Branches
import Bahasa.Proofs.Eval.Calls
import Bahasa.Proofs.Eval.Compound
import Bahasa.Proofs.Highlight.Lines
import Bahasa.Proofs.Highlight.Fragments
import Bahasa.Proofs.Highlight.Errors
import Bahasa.Proofs.Highlight.Agreement
import Bahasa.Proofs.Value.Slots
import Bahasa.Proofs.Eval.Objects
import Bahasa.Proofs.Eval.Flat
