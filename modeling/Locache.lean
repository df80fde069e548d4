import Locache.Address
import Locache.Cache.Deadlines
import Locache.Cluster.Availability
import Locache.Cluster.Completion
import Locache.Cluster.Integrity
import Locache.Cluster.Linear
import Locache.Cluster.Routing
import Locache.ConsistentHash.Owner
import Locache.Group.Clears
import Locache.Group.Closing
import Locache.Group.Contexts
import Locache.Group.Deletions
import Locache.Group.Errors
import Locache.Group.Gate
import Locache.Group.Holders
import Locache.Group.MissingClient
import Locache.Group.Near
import Locache.Group.OwnerEpoch
import Locache.Group.Ownership
import Locache.Group.Reloads
import Locache.Picker.Closing
import Locache.Picker.Services
import Locache.Process.Registry
import Locache.Service.Completion
import Locache.Singleflight
import Locache.Store.Agreement
import Locache.Store.Evictions
import Locache.Store.Sharded
