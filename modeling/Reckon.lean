import Reckon.Main
import Reckon.Proofs.Node.Grammar
import Reckon.Proofs.Node.Reading
import Reckon.Proofs.Node.Acceptance
import Reckon.Proofs.Token.Layout
import Reckon.Proofs.Token.Pattern
import Reckon.Proofs.Token.Tiling
import Reckon.Proofs.Token.Munch
import Reckon.Proofs.Typed.Exact
import Reckon.Proofs.Expr.Basic
import Reckon.Proofs.Expr.Rendering
import Reckon.Proofs.Expr.Evaluation
import Reckon.Proofs.Tree.Height
import Reckon.Proofs.Typed.Origin
import Reckon.Proofs.Analysis.Gate
import Reckon.Proofs.Node.Relocation
import Reckon.Proofs.Analysis.Relocation
import Reckon.Proofs.Analysis.Printing
import Reckon.Proofs.Text.Line
import Reckon.Proofs.Session.Conversation
import Reckon.Proofs.Node.Moves
import Reckon.Proofs.Typed.Postorder
import Reckon.Proofs.Tree.Abandonment
import Reckon.Proofs.Tree.Recovery
import Reckon.Proofs.Tree.Spans
import Reckon.Proofs.Token.Seam
import Reckon.Proofs.Tree.Leftover
import Reckon.Proofs.Tree.Measure
import Reckon.Proofs.Typed.Complaints
import Reckon.Proofs.Typed.Typing
import Reckon.Proofs.Node.Parentheses
import Reckon.Proofs.Analysis.Parentheses
import Reckon.Proofs.Token.Reader
import Reckon.Proofs.Analysis.Literals
import Reckon.Proofs.Node.Addresses
import Reckon.Proofs.Session.Drawing
import Reckon.Proofs.Tree.Reports
import Reckon.Proofs.Analysis.Places
import Reckon.Proofs.Node.Machine
import Reckon.Proofs.Tree.Termination
