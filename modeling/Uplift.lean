import Uplift.Main
import Uplift.Text.Neighbour
import Uplift.Proofs.Document
import Uplift.Proofs.Line
import Uplift.Proofs.Nesting
import Uplift.Proofs.Origin
import Uplift.Proofs.Transform
import Uplift.Proofs.Rounds
import Uplift.Proofs.Concatenation
import Uplift.Proofs.Encoding
import Uplift.Proofs.Quoted
import Uplift.Proofs.Template
import Uplift.Proofs.Stretch
import Uplift.Proofs.Scope
import Uplift.Proofs.Aside
import Uplift.Proofs.Host
import Uplift.Proofs.Search
import Uplift.Proofs.Constant
import Uplift.Proofs.Owner
import Uplift.Proofs.Made
import Uplift.Proofs.Leading
import Uplift.Proofs.Layout
import Uplift.Proofs.Ink
import Uplift.Proofs.Thrift
import Uplift.Proofs.Interpolation
import Uplift.Proofs.Laminar
import Uplift.Proofs.Stability
import Uplift.Proofs.Baseline
import Uplift.Proofs.Reader
import Uplift.Proofs.Formed
import Uplift.Proofs.Formed.Pattern
import Uplift.Proofs.Formed.Type
import Uplift.Proofs.Formed.Member
import Uplift.Proofs.Formed.Expression
import Uplift.Proofs.Formed.Statement
import Uplift.Proofs.Assigned
import Uplift.Proofs.Verdict
import Uplift.Proofs.Settled
import Uplift.Proofs.Trusted
import Uplift.Proofs.Arrowed
import Uplift.Proofs.Neighbour
import Uplift.Proofs.Slot
import Uplift.Proofs.Inlined
import Uplift.Proofs.Counted
import Uplift.Proofs.Frame
import Uplift.Proofs.Script
import Uplift.Proofs.Anchor
import Uplift.Proofs.Spread
import Uplift.Proofs.Thunk
import Uplift.Proofs.Order
import Uplift.Proofs.Requoted
import Uplift.Proofs.Comment
import Uplift.Proofs.Disk
import Uplift.Proofs.Session
import Uplift.Proofs.Selection
import Uplift.Proofs.Listing
import Uplift.Proofs.Termination
import Uplift.Proofs.Trivia
import Uplift.Proofs.Boundary
import Uplift.Proofs.Grouping
