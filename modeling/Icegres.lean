import Icegres.Segment
import Icegres.Transition
import Icegres.Layers
import Icegres.TermLog.Fencing
import Icegres.Quorum.Refines
import Icegres.Quorum.LogMatching
import Icegres.Quorum.Campaigns
import Icegres.Quorum.Histories
import Icegres.Quorum.Sendable
import Icegres.Quorum.Messages
import Icegres.Quorum.Reopen
import Icegres.Quorum.Rejoin
import Icegres.Quorum.Lag
import Icegres.Quorum.Watermarks
import Icegres.Quorum.Durable
import Icegres.Tail.Scan
import Icegres.Buffer.Window
import Icegres.Buffer.Books
import Icegres.Buffer.Reads
import Icegres.Buffer.Appends
import Icegres.Buffer.Order
import Icegres.Buffer.Once
import Icegres.Buffer.Replay
import Icegres.Catalog.Expiry
import Icegres.Catalog.Fork
import Icegres.Commit.Outcome
import Icegres.Commit.Unique
import Icegres.Compact.Replace
import Icegres.Buffer.Agreement
import Icegres.Cache.Reuse
import Icegres.Session.Agreement
import Icegres.Session.InsertKeys
import Icegres.Sql.Split
import Icegres.Authz.Complete
import Icegres.Icegresd.Computes
import Icegres.Maintain.Orphans
import Icegres.Evolution.Dropped
import Icegres.Segment.Ranges
import Icegres.Tail.Tickets
import Icegres.FlightWeb.Reassembly
import Icegres.Cache.Accounts
import Icegres.AsOf.Instants
import Icegres.AsOf.Gate
import Icegres.ReadOnly.Executed
import Icegres.Tail.Usable
import Icegres.Tail.GroupFsync
import Icegres.Authz.Policy
import Icegres.Icegresd.Lease
import Icegres.Tail.PostgresTakeover
import Icegres.Lakehouse.Complete
