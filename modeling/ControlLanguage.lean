import ControlLanguage.Proofs.Conservation
import ControlLanguage.Proofs.RoundTrip
import ControlLanguage.Proofs.Lines.Reflow
import ControlLanguage.Proofs.Lines.Margin
import ControlLanguage.Proofs.Lines.Atomic
import ControlLanguage.Proofs.Form.RoundTrip
import ControlLanguage.Proofs.Quoting
import ControlLanguage.Proofs.Form.Quoted
import ControlLanguage.Proofs.Form.Instances
import ControlLanguage.Proofs.Form.Parts
import ControlLanguage.Proofs.Form.Nested
import ControlLanguage.Proofs.Token.Parens
import ControlLanguage.Proofs.Token.OpenLiteral
import ControlLanguage.Proofs.Comment.Origin
import ControlLanguage.Proofs.Case.Commands
import ControlLanguage.Proofs.Lines.Canonical
import ControlLanguage.Proofs.Comment.Extraction
import ControlLanguage.Proofs.Faults
import ControlLanguage.Proofs.Argument.Search
import ControlLanguage.Proofs.Comment.Wrapping
import ControlLanguage.Proofs.Comment.Reflow
import ControlLanguage.Proofs.Lines.Loops
import ControlLanguage.Proofs.Positional
import ControlLanguage.Proofs.Token.Tiling
import ControlLanguage.Proofs.Form.Leaves
import ControlLanguage.Proofs.Form.Surplus
import ControlLanguage.Proofs.Form.Omitted
import ControlLanguage.Proofs.Nesting.Pieces
import ControlLanguage.Proofs.Form.Qualified
import ControlLanguage.Proofs.Form.Defaults
import ControlLanguage.Proofs.Nesting.Pairs
import ControlLanguage.Proofs.Schema.Encoding
import ControlLanguage.Proofs.Session
import ControlLanguage.Proofs.Format.Document
