import DhtOcean.Foundation.Transition
import DhtOcean.Bencode.RoundTrip
import DhtOcean.Bencode.Complete
import DhtOcean.Bencode.Canonical
import DhtOcean.Bencode.Termination
import DhtOcean.Cache.Deadlock
import DhtOcean.Cache.Recency
import DhtOcean.Cache.Blocking
import DhtOcean.Cache.Renewal
import DhtOcean.Krpc.HandlerSafety
import DhtOcean.Krpc.FindNode
import DhtOcean.Krpc.Aliasing
import DhtOcean.Krpc.FetchAddr
import DhtOcean.Crawler.Accounting
import DhtOcean.Crawler.Sharing
import DhtOcean.Tracker.Handshake
import DhtOcean.Tracker.Connection
import DhtOcean.Tracker.Batch
import DhtOcean.Tracker.Recover
import DhtOcean.Tracker.Refresh
import DhtOcean.Tracker.Cycle
import DhtOcean.Scrape.Attribution
import DhtOcean.Scrape.Service
import DhtOcean.Metadata.Integrity
import DhtOcean.Store.TrackerState
import DhtOcean.Store.Selection
import DhtOcean.Store.Ingestion
import DhtOcean.Socket.Ownership
import DhtOcean.Proxy.Delivery
import DhtOcean.Proxy.Relay
import DhtOcean.Proxy.Tunnel
import DhtOcean.Bloom.InPlace
import DhtOcean.Fetcher.Persistence
import DhtOcean.Index.Accounting
import DhtOcean.Index.SearchFlag
import DhtOcean.Store.Documents
import DhtOcean.Store.Views
