import Wegweiser.Apply.Delegation
import Wegweiser.Apply.Untouched
import Wegweiser.Apply.Validated
import Wegweiser.Apply.Restore
import Wegweiser.Apply.Serial
import Wegweiser.Apply.InOrder
import Wegweiser.Cluster.Safety
import Wegweiser.Cluster.Gapless
import Wegweiser.Cluster.Witness
import Wegweiser.Cluster.Transport
import Wegweiser.Access.Ended
import Wegweiser.Access.Routes
import Wegweiser.Access.Limiter
import Wegweiser.Access.Tokens
import Wegweiser.DNS.Additional
import Wegweiser.DNS.Shared
import Wegweiser.DNS.Rotation
import Wegweiser.DNS.Stale
import Wegweiser.DNS.Secondaries
import Wegweiser.Zone.Rendezvous
import Wegweiser.Secondary
import Wegweiser.Store.Listed
import Wegweiser.Stream.Filter
import Wegweiser.Stream.Watch
import Wegweiser.DNS.SipHash
import Wegweiser.Apply.Tiers
