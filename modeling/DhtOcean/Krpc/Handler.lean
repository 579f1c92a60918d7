import DhtOcean.Bencode.Encode
import DhtOcean.Cache.Lrw
import DhtOcean.Krpc.Node

/-! # The message handlers of the crawler

A handler takes a decoded packet and changes what the crawler has queued: nodes
to ask, packets to send and torrents to fetch. The queues are unbounded here, so
only the cache of seen nodes can block a handler. Metrics and logs are left out.
-/
namespace DhtOcean.Krpc
open Foundation Bencode Cache

structure OutPacket where
  data : Bytes
  addr : AddrPort
  deriving DecidableEq, Repr

/-- The text of an address: as the sender has it, or the sender's host with another port. -/
inductive FetchAddr
  | ofAddr (addr : AddrPort)
  | hostPort (ip : IpAddr) (port : Int64)
  deriving DecidableEq

structure TorrentRequest where
  nodeID : Bytes
  infoHash : Bytes
  addr : FetchAddr
  deriving DecidableEq

structure Crawler where
  nodeID : Bytes
  maxQueueSize : Int64
  neighbours : List Node
  seenNodes : LRWCache AddrPort Unit
  outPackets : List OutPacket
  requests : List TorrentRequest

/-- A packet that cannot be encoded is not sent; its slices are read when it is encoded. -/
def sendPacket (c : Crawler) (mem : Bytes) (data : Dict Slice) (addr : AddrPort) : Crawler :=
  match bEncode (.map (loadEntries (Slice.read mem) data)) with
  | .error _ => c
  | .ok encoded => { c with outPackets := c.outPackets ++ [⟨encoded,addr⟩] }

/-- Ports come from two octets, so they are below 65536. -/
def wanted (c : Crawler) (mem : Bytes) (node : Node) : Bool :=
  !node.addr.ip.isUnspecified && c.nodeID != node.nodeID.read mem && decide (0 < node.addr.port)

def queueFull (c : Crawler) : Bool :=
  decide (0 < c.maxQueueSize.toInt) && decide (c.maxQueueSize.toInt ≤ c.neighbours.length)

def onFindNodeResponse (mem : Bytes) : Crawler → List Node → Call Crawler
  | c, [] => .ok c
  | c, node :: nodes =>
    if queueFull c then .ok c
    else if wanted c mem node then
      match c.seenNodes.get node.addr with
      | some _ => onFindNodeResponse mem c nodes
      | none =>
        match c.seenNodes.set node.addr () with
        | none => .hang
        | some seen =>
          onFindNodeResponse mem { c with seenNodes := seen, neighbours := c.neighbours ++ [node] } nodes
    else onFindNodeResponse mem c nodes

/-- The first 20 octets of the hash, for requests and their token alike; shorter ones are nil. -/
def getPeersInfoHash (data : Dict Slice) : Option Slice :=
  match mustGetBytes data (ascii "a.info_hash") with
  | none => none
  | some (.view off len) => if len < 20 then none else some (.view off 20)
  | some (.owned b) => if b.length < 20 then none else some (.owned (b.take 20))

def newGetPeersResponse (nodeID token : Slice) : Dict Slice :=
  [(ascii "y",.str (ascii "r")),
    (ascii "r",.map [(ascii "id",.bytes nodeID),(ascii "nodes",.str []),(ascii "token",.bytes token)])]

def newEmptyResponsePacket (nodeID : Slice) : Dict Slice :=
  [(ascii "y",.str (ascii "r")),(ascii "r",.map [(ascii "id",.bytes nodeID)])]

def setT (data : Dict Slice) (tid : Slice) : Dict Slice := data ++ [(ascii "t",.bytes tid)]

/-- The neighbour ID is built before the token is looked up, and may write into the datagram. -/
def onGetPeersRequest (c : Crawler) (p : Packet AddrPort) (addr : AddrPort) : Call Crawler := do
  match ← p.getT with
  | none => return c
  | some tid =>
    match getPeersInfoHash p.data with
    | none => return c
    | some nid => do
      let (nodeID,mem) ← getNeighbourID p.buf nid c.nodeID
      let res := newGetPeersResponse nodeID (orNil (getPeersInfoHash p.data))
      return sendPacket c mem (setT res tid) addr

def onAnnouncePeerRequest (c : Crawler) (p : Packet AddrPort) (addr : AddrPort) : Call Crawler := do
  let tid ← p.getT
  let (nodeID,mem) ← getNeighbourID p.buf (orNil (mustGetBytes p.data (ascii "a.id"))) c.nodeID
  let c := sendPacket c mem (setT (newEmptyResponsePacket nodeID) (orNil tid)) addr
  let a := if (getInt p.data (ascii "a.implied_port")).1 = 0
    then FetchAddr.hostPort addr.ip (getInt p.data (ascii "a.port")).1 else .ofAddr addr
  let infoHash := (orNil (mustGetBytes p.data (ascii "a.info_hash"))).read mem
  return { c with requests := c.requests ++ [⟨c.nodeID,infoHash,a⟩] }

/-- The branch of `onMessage` for responses. The error of a response without a map is
logged, and then its nil result is used. -/
def onResponse (c : Crawler) (p : Packet AddrPort) : Call Crawler :=
  if checkMapPath p.data (ascii "r.nodes") then do
    match ← newFindNodeResponse p with
    | none => .panic .nilDereference
    | some res => onFindNodeResponse p.buf c res.nodes
  else .ok c

/-- The branch of `onMessage` for queries. -/
def onQuery (c : Crawler) (p : Packet AddrPort) (addr : AddrPort) : Call Crawler := do
  let q ← p.getQ
  if q = ascii "get_peers" then onGetPeersRequest c p addr
  else if q = ascii "announce_peer" then onAnnouncePeerRequest c p addr
  else return c

/-- Errors and unknown packets are only logged and counted. -/
def onMessage (c : Crawler) (p : Packet AddrPort) (addr : AddrPort) : Call Crawler := do
  let y ← p.getY
  if y = ascii "r" then onResponse c p
  else if y = ascii "q" then onQuery c p addr
  else return c

end DhtOcean.Krpc
