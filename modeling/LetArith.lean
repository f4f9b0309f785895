import LetArith.Config
import LetArith.Cursor
import LetArith.Cursor.Lookahead
import LetArith.Diagnostic
import LetArith.Grammar.Expression
import LetArith.Grammar.Parse
import LetArith.Grammar.Parser
import LetArith.Grammar.Rules
import LetArith.Grammar.Statement
import LetArith.Json.Text
import LetArith.Json.Tree
import LetArith.Json.Value
import LetArith.Number.Binary64
import LetArith.Number.Decimal
import LetArith.Number.Numeral
import LetArith.Number.Shortest
import LetArith.Operator
import LetArith.Position
import LetArith.Proofs.Brackets
import LetArith.Proofs.Cursor.Indexed
import LetArith.Proofs.Cursor.Passing
import LetArith.Proofs.Grammar.Closing
import LetArith.Proofs.Grammar.Depth
import LetArith.Proofs.Grammar.Derivation
import LetArith.Proofs.Grammar.FirstFault
import LetArith.Proofs.Grammar.Foresight
import LetArith.Proofs.Grammar.Invariance
import LetArith.Proofs.Grammar.Limit
import LetArith.Proofs.Grammar.Lockstep
import LetArith.Proofs.Grammar.Log
import LetArith.Proofs.Grammar.Machine
import LetArith.Proofs.Grammar.Moves
import LetArith.Proofs.Grammar.Nesting
import LetArith.Proofs.Grammar.Progress
import LetArith.Proofs.Grammar.Recognition
import LetArith.Proofs.Grammar.Sequence
import LetArith.Proofs.Grammar.Termination
import LetArith.Proofs.Json.Forms
import LetArith.Proofs.Json.Restored
import LetArith.Proofs.Number.ReadBack
import LetArith.Proofs.Source.Joining
import LetArith.Proofs.Source.Layout
import LetArith.Proofs.Source.Lexemes
import LetArith.Proofs.Source.Maximal
import LetArith.Proofs.Source.Placement
import LetArith.Proofs.Source.Scanning
import LetArith.Proofs.Source.Separator
import LetArith.Proofs.Source.Spacing
import LetArith.Proofs.Source.Unrecognised
import LetArith.Proofs.Tree.Derived
import LetArith.Proofs.Tree.Leaves
import LetArith.Proofs.Tree.Parentheses
import LetArith.Proofs.Tree.Printed
import LetArith.Proofs.Tree.Redundant
import LetArith.Proofs.Tree.Rendering
import LetArith.Proofs.Tree.RoundTrip
import LetArith.Proofs.Tree.Split
import LetArith.Reading
import LetArith.Source.Piece
import LetArith.Source.Reader
import LetArith.Source.Tokens
import LetArith.Text.Quoted
import LetArith.Token
import LetArith.Tree
import LetArith.Tree.Text
