import TypeFlow.Diagnostics.Report
import TypeFlow.Decimal.Reader
import TypeFlow.Expr.Display
import TypeFlow.Expr.Induction
import TypeFlow.Graph.Lemmas
import TypeFlow.Session
import TypeFlow.Workbench
import TypeFlow.Proofs.Targets
import TypeFlow.Proofs.Courses
import TypeFlow.Proofs.Defining
import TypeFlow.Proofs.Deriving
import TypeFlow.Proofs.Phases
import TypeFlow.Proofs.Caching
import TypeFlow.Proofs.ClosedForm
import TypeFlow.Proofs.Informing
import TypeFlow.Proofs.Safety
import TypeFlow.Proofs.Reordering
import TypeFlow.Proofs.Solving
import TypeFlow.Proofs.Bodies
import TypeFlow.Proofs.Templates
import TypeFlow.Proofs.Sparing
import TypeFlow.Proofs.Sessions
import TypeFlow.Proofs.Isolation
import TypeFlow.Proofs.Widening
import TypeFlow.Proofs.Sites
import TypeFlow.Proofs.Searching
import TypeFlow.Proofs.Merging
import TypeFlow.Proofs.Collecting
import TypeFlow.Proofs.Repeating
import TypeFlow.Proofs.Rippling
import TypeFlow.Proofs.Lingering
import TypeFlow.Proofs.Spanning
import TypeFlow.Proofs.Locating
import TypeFlow.Proofs.Hearing
import TypeFlow.Proofs.Restoring
