import GeeH.ActiveQueue
import GeeH.AsyncOps
import GeeH.Bytes
import GeeH.Candidate.Accounting
import GeeH.Candidate.Calls
import GeeH.Candidate.Destruction
import GeeH.Candidate.Impl
import GeeH.Candidate.Invariants
import GeeH.Candidate.Progress
import GeeH.Candidate.Resignation
import GeeH.Candidate.Steps
import GeeH.Candidate.Txns
import GeeH.Cluster.Convergence
import GeeH.Cluster.Impl
import GeeH.Cluster.Refresh
import GeeH.CompletionQueue
import GeeH.Dispatch
import GeeH.Election.Audience
import GeeH.Election.Cancellation
import GeeH.Election.Failover
import GeeH.Election.Fencing
import GeeH.Election.Leases
import GeeH.Election.Liveness
import GeeH.Election.Lock
import GeeH.Election.MutualExclusion
import GeeH.Election.Published
import GeeH.Election.Succession
import GeeH.Election.System
import GeeH.Election.Watches
import GeeH.Etcd.History
import GeeH.Etcd.Service
import GeeH.Etcd.Store
import GeeH.Fairness
import GeeH.Futures
import GeeH.Gate
import GeeH.Handlers
import GeeH.LeaderElection
import GeeH.Log
import GeeH.Observer.Accounting
import GeeH.Observer.CatchUp
import GeeH.Observer.Covering
import GeeH.Observer.Destruction
import GeeH.Observer.Discovery
import GeeH.Observer.Impl
import GeeH.Observer.Listening
import GeeH.Observer.Monotone
import GeeH.Observer.Notification
import GeeH.Observer.Refinement
import GeeH.Observer.Rounds
import GeeH.Observer.Steps
import GeeH.Observer.System
import GeeH.Observer.Tracking
import GeeH.OrdMap
import GeeH.Policies
import GeeH.Pool
import GeeH.QueueShutdown
import GeeH.Rules
import GeeH.Session.Accounting
import GeeH.Session.Cycle
import GeeH.Session.Destruction
import GeeH.Session.Impl
import GeeH.Session.Lease
import GeeH.Session.Revocation
import GeeH.Session.Steps
import GeeH.StreamPointers
import GeeH.Streams
import GeeH.Teardown
import GeeH.TicketLock
