import Libtorrent.Swarm.Availability
import Libtorrent.Swarm.Hints
import Libtorrent.Swarm.Pex
import Libtorrent.IpFilter.Semantics
import Libtorrent.Utp.SelectiveAck
import Libtorrent.Bandwidth.RateLimit
import Libtorrent.Buffer.Buffer
import Libtorrent.Buffer.Chained
import Libtorrent.Merkle.Exchange
import Libtorrent.Metainfo.Traversal
import Libtorrent.Dht.Accounting
import Libtorrent.Dht.Announce
import Libtorrent.Dht.FindNode
import Libtorrent.Dht.ItemStore
import Libtorrent.Dht.Refresh
import Libtorrent.Metadata.Bounds
import Libtorrent.Metadata.Ut
import Libtorrent.Session.QueueOrder
import Libtorrent.PeerList.Limit
import Libtorrent.Storage.SlotTables
import Libtorrent.Choker.SlotAccounts
import Libtorrent.Picker.SparseRegions
import Libtorrent.Picker.Distinct
import Libtorrent.Requests.Agreement
import Libtorrent.Requests.EndGame
import Libtorrent.Resume.RoundTrip
import Libtorrent.Utp.Extensions
import Libtorrent.Utp.WriteSack
import Libtorrent.Utp.WriteStream
import Libtorrent.Metainfo.Encoding
import Libtorrent.Magnet.Uri
import Libtorrent.Torrent.FileFilter
