import FiniteDomain.Main
import FiniteDomain.Proofs.Futoshiki.Answer
import FiniteDomain.Proofs.Propagation.FixedPoint
import FiniteDomain.Proofs.Propagation.Record
import FiniteDomain.Proofs.Search.Enumeration
import FiniteDomain.Proofs.Search.Lexicographic
import FiniteDomain.Proofs.Search.Verdict
import FiniteDomain.Proofs.Futoshiki.Meaning
import FiniteDomain.Proofs.Search.Acceptance
import FiniteDomain.Proofs.Propagation.Strength
import FiniteDomain.Proofs.Search.Trail
import FiniteDomain.Proofs.Search.Effort
import FiniteDomain.Proofs.Search.Maintenance
import FiniteDomain.Proofs.Search.Bound
import FiniteDomain.Proofs.Futoshiki.RoundTrip
import FiniteDomain.Proofs.Futoshiki.Effort
import FiniteDomain.Proofs.Propagation.Dominance
import FiniteDomain.Proofs.Propagation.Drain
import FiniteDomain.Proofs.Network.Session
import FiniteDomain.Proofs.Constraint.Search
import FiniteDomain.Proofs.Propagation.Filter
import FiniteDomain.Proofs.Search.Sharing
import FiniteDomain.Proofs.Search.Budget
import FiniteDomain.Proofs.Search.Audit
import FiniteDomain.Proofs.Search.Balance
import FiniteDomain.Proofs.Search.Accounts
import FiniteDomain.Proofs.Constraint.Distinct
import FiniteDomain.Proofs.Propagation.Failures
import FiniteDomain.Proofs.Domain.History
import FiniteDomain.Proofs.Propagation.Deque
