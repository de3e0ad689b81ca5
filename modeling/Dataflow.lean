import Dataflow.Main
import Dataflow.Proofs.Assignment
import Dataflow.Proofs.Bisimilarity
import Dataflow.Proofs.Canonical
import Dataflow.Proofs.Chains
import Dataflow.Proofs.Chronicle
import Dataflow.Proofs.Custody
import Dataflow.Proofs.Foreign
import Dataflow.Proofs.Hashing
import Dataflow.Proofs.Idle
import Dataflow.Proofs.Ownership
import Dataflow.Proofs.Retry
import Dataflow.Proofs.Summons
import Dataflow.Proofs.Suspension
import Dataflow.Proofs.Transparency
import Dataflow.Session.Perform
import Dataflow.Proofs.Interning
import Dataflow.Proofs.Tidiness
import Dataflow.Proofs.Adoption
import Dataflow.Proofs.Resemblance
import Dataflow.Proofs.Courses
import Dataflow.Proofs.Twins
import Dataflow.Proofs.Schedules
import Dataflow.Proofs.Alternatives
import Dataflow.Proofs.Atomicity
import Dataflow.Proofs.Lookup
import Dataflow.Proofs.Quoting
import Dataflow.Proofs.Scalars
import Dataflow.Proofs.Readability
import Dataflow.Proofs.Exceptions
import Dataflow.Proofs.Precedence
import Dataflow.Proofs.Visits
