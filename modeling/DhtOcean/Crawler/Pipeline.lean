import DhtOcean.Foundation.Channels
import DhtOcean.Foundation.HostPort
import DhtOcean.Krpc.FindNode
import DhtOcean.Krpc.FetchAddr

/-! # The goroutines of the crawler

Datagrams pass from the listener to the decoders and from them to the handlers,
which queue nodes to ask, packets to send and torrents to fetch. Each stage is a
loop over a bounded channel. The socket and the ticker are channels that are fed
from outside. Calls of the cache, of the filter, of the database and of the network
are questions; what they answer is left open, and so is whether they return. Metrics
and logs are left out.
-/
namespace DhtOcean.Pipeline
open Foundation Bencode Krpc

inductive Chan
  | socket
  | tick
  | rawPackets
  | decodedPackets
  | neighbours
  | outPackets
  | uncheckedChan
  | tasks
  deriving DecidableEq

instance fintype_chan : Fintype Chan :=
  .ofList [.socket,.tick,.rawPackets,.decodedPackets,.neighbours,.outPackets,.uncheckedChan,.tasks]
    (by intro c; cases c <;> decide)

/-- A node with the datagram that holds its ID. -/
structure Neighbour where
  mem : Bytes
  node : Node

abbrev Message : Chan → Type
  | .socket => Bytes × AddrPort
  | .tick => Unit
  | .rawPackets => Packet AddrPort
  | .decodedPackets => Packet AddrPort
  | .neighbours => Neighbour
  | .outPackets => OutPacket
  | .uncheckedChan => TorrentRequest
  | .tasks => TorrentRequest

inductive Lookup
  | found
  | noDocuments
  | failed
  deriving DecidableEq

/-- The calls whose results are left open. `seenNodes.Set` may block for ever, and `WriteTo` may panic. -/
inductive Question
  /-- `seenNodes.Get` -/
  | seen (addr : AddrPort)
  /-- `seenNodes.Set` -/
  | see (addr : AddrPort)
  /-- `bloomFilter.Exists` -/
  | exists (infoHash : Bytes)
  /-- `TorrentColl.FindOne` -/
  | findOne (infoHash : Bytes)
  /-- `findNodeLimiter.Wait` -/
  | wait
  /-- `GenerateNodeID` and `NextTransactionID` -/
  | request
  /-- `WriteTo`, behind the reconnection if there is none -/
  | write (pkt : OutPacket)
  /-- `pullTorrent` -/
  | pull (req : TorrentRequest)

abbrev Answer : Question → Type
  | .seen _ => Bool
  | .see _ => Unit
  | .exists _ => Bool
  | .findOne _ => Lookup
  | .wait => Unit
  | .request => Bytes × Bytes
  | .write _ => Unit
  | .pull _ => Unit

instance nonempty_answer : ∀ q, Nonempty (Answer q)
  | .seen _ => ⟨false⟩
  | .see _ => ⟨()⟩
  | .exists _ => ⟨false⟩
  | .findOne _ => ⟨.failed⟩
  | .wait => ⟨()⟩
  | .request => ⟨([],[])⟩
  | .write _ => ⟨()⟩
  | .pull _ => ⟨()⟩

abbrev Body := Prog Message Answer

/-- Sizes of queues and numbers of threads are not negative: the channels could not be made. -/
structure Config where
  nodeID : Bytes
  bootstrapNodes : List AddrPort
  maxQueueSize : Int64
  packetQueueSize : ℕ
  torrentMaxQueueSize : ℕ
  socketBuffer : ℕ
  decoderThreads : ℕ
  handlerThreads : ℕ
  torrentWorkers : ℕ

section Loops
variable (cfg : Config)

/-- Nothing recovers from a panic of these calls. -/
def ofCall {α : Type} (x : Call α) (next : α → Body) : Body :=
  match x with
  | .ok a => next a
  | .error e => nomatch e
  | .panic _ => .crash
  | .hang => .crash

def sendPacket (mem : Bytes) (data : Dict Slice) (addr : AddrPort) (next : Body) : Body :=
  match bEncode (.map (loadEntries (Slice.read mem) data)) with
  | .error _ => next
  | .ok encoded => .send .outPackets ⟨encoded,addr⟩ next

def newFindNodeRequest (nodeID : Slice) (target : Bytes) : Dict Slice :=
  [(ascii "y",.str (ascii "q")),(ascii "q",.str (ascii "find_node")),
    (ascii "a",.map [(ascii "id",.bytes nodeID),(ascii "target",.bytes (.owned target))])]

def listen (datagram : Bytes × AddrPort) : Body :=
  .send .rawPackets (newPacketFromBuffer datagram.1 datagram.2) .done

def sendNodes : List Neighbour → Body
  | [] => .done
  | node :: nodes => .send .neighbours node (sendNodes nodes)

/-- All bootstrap nodes have the crawler's own ID. -/
def bootstrapNodes : List Neighbour := cfg.bootstrapNodes.map fun addr => ⟨[],.owned cfg.nodeID,addr⟩

def bootstrap : Body :=
  .peek .neighbours fun n => if n = 0 then sendNodes (bootstrapNodes cfg) else .done

def decodeLoop (p : Packet AddrPort) : Body :=
  match p.decode with
  | .ok p' => .send .decodedPackets p' .done
  | .error _ => .done
  | .panic _ => .crash
  | .hang => .crash

def wanted (mem : Bytes) (node : Node) : Bool :=
  !node.addr.ip.isUnspecified && cfg.nodeID != node.nodeID.read mem && decide (0 < node.addr.port)

def onFindNodeResponse (mem : Bytes) : List Node → Body
  | [] => .done
  | node :: nodes =>
    .peek .neighbours fun n =>
      if 0 < cfg.maxQueueSize.toInt ∧ cfg.maxQueueSize.toInt ≤ n then .done
      else if wanted cfg mem node then
        .ask (.seen node.addr) fun seen =>
          if seen then onFindNodeResponse mem nodes
          else .ask (.see node.addr) fun _ => .send .neighbours ⟨mem,node⟩ (onFindNodeResponse mem nodes)
      else onFindNodeResponse mem nodes

def onGetPeersRequest (p : Packet AddrPort) (addr : AddrPort) : Body :=
  ofCall p.getT fun tid =>
    match tid with
    | none => .done
    | some tid =>
      match getPeersInfoHash p.data with
      | none => .done
      | some nid =>
        ofCall (getNeighbourID p.buf nid cfg.nodeID) fun (nodeID,mem) =>
          sendPacket mem (setT (newGetPeersResponse nodeID (orNil (getPeersInfoHash p.data))) tid) addr .done

/-- The length of the queue is looked at before the task is sent, and may have changed by then. -/
def commit (req : TorrentRequest) : Body :=
  .peek .tasks fun n => if cfg.torrentMaxQueueSize ≤ n then .done else .send .tasks req .done

def push (req : TorrentRequest) : Body :=
  .ask (.exists req.infoHash) fun exist => if exist then .send .uncheckedChan req .done else commit cfg req

def onAnnouncePeerRequest (p : Packet AddrPort) (addr : AddrPort) : Body :=
  ofCall p.getT fun tid =>
    ofCall (getNeighbourID p.buf (orNil (mustGetBytes p.data (ascii "a.id"))) cfg.nodeID) fun (nodeID,mem) =>
      sendPacket mem (setT (newEmptyResponsePacket nodeID) (orNil tid)) addr <|
        let a := if (getInt p.data (ascii "a.implied_port")).1 = 0
          then FetchAddr.hostPort addr.ip (getInt p.data (ascii "a.port")).1 else .ofAddr addr
        push cfg ⟨cfg.nodeID,(orNil (mustGetBytes p.data (ascii "a.info_hash"))).read mem,a⟩

def onResponse (p : Packet AddrPort) : Body :=
  if checkMapPath p.data (ascii "r.nodes") then
    ofCall (newFindNodeResponse p) fun res =>
      match res with
      | none => .crash
      | some res => onFindNodeResponse cfg p.buf res.nodes
  else .done

def onQuery (p : Packet AddrPort) (addr : AddrPort) : Body :=
  ofCall p.getQ fun q =>
    if q = ascii "get_peers" then onGetPeersRequest cfg p addr
    else if q = ascii "announce_peer" then onAnnouncePeerRequest cfg p addr
    else .done

def onMessage (p : Packet AddrPort) (addr : AddrPort) : Body :=
  ofCall p.getY fun y =>
    if y = ascii "r" then onResponse cfg p
    else if y = ascii "q" then onQuery cfg p addr
    else .done

def handlerLoop (p : Packet AddrPort) : Body := onMessage cfg p p.addr

def neighbourLoop (n : Neighbour) : Body :=
  .ask .wait fun _ =>
    ofCall (getNeighbourID n.mem n.node.nodeID cfg.nodeID) fun (nodeID,mem) =>
      .ask .request fun (target,tid) =>
        sendPacket mem (setT (newFindNodeRequest nodeID target) (.owned tid)) n.node.addr .done

/-- A parsed address is valid. -/
def sendLoop (pkt : OutPacket) : Body :=
  match parseAddrPort pkt.addr.text with
  | none => .done
  | some addrPort => if addrPort.port = 0 then .done else .ask (.write pkt) fun _ => .done

def checkExistLoop (req : TorrentRequest) : Body :=
  .ask (.findOne req.infoHash) fun result =>
    match result with
    | .noDocuments => commit cfg req
    | .failed => .done
    | .found => .done

/-- `RunSafe` keeps a worker from the panics of its task. -/
def worker (req : TorrentRequest) : Body := .ask (.pull req) fun _ => .done

def threads : Chan → ℕ
  | .rawPackets => cfg.decoderThreads
  | .decodedPackets => cfg.handlerThreads
  | .tasks => cfg.torrentWorkers
  | _ => 1

/-- A goroutine is named by the channel it takes messages from. -/
abbrev Goroutine := (c : Chan) × Fin (threads cfg c)

def network : Network (Goroutine cfg) Message Answer where
  cap
    | .socket => cfg.socketBuffer
    | .tick => 1
    | .rawPackets => cfg.packetQueueSize
    | .decodedPackets => cfg.packetQueueSize
    | .neighbours => cfg.maxQueueSize.toInt.toNat
    | .outPackets => cfg.packetQueueSize
    | .uncheckedChan => 10000
    | .tasks => cfg.torrentMaxQueueSize
  home := Sigma.fst
  body
    | .socket => listen
    | .tick => fun _ => bootstrap cfg
    | .rawPackets => decodeLoop
    | .decodedPackets => handlerLoop cfg
    | .neighbours => neighbourLoop cfg
    | .outPackets => sendLoop
    | .uncheckedChan => checkExistLoop cfg
    | .tasks => worker
  source
    | .socket => true
    | .tick => true
    | _ => false

end Loops

/-- What a handler makes of a packet. All that can fail comes before its first operation on a
channel. -/
inductive Task
  | fail
  | nodes (mem : Bytes) (nodes : List Node)
  | reply (pkts : List OutPacket)
  | fetch (pkts : List OutPacket) (req : TorrentRequest)

def sendAll : List OutPacket → Body → Body
  | [], next => next
  | pkt :: pkts, next => .send .outPackets pkt (sendAll pkts next)

def Task.body (cfg : Config) : Task → Body
  | fail => .crash
  | nodes mem ns => onFindNodeResponse cfg mem ns
  | reply pkts => sendAll pkts .done
  | fetch pkts req => sendAll pkts (push cfg req)

/-- What the handler of a single thread does with the same packet. -/
def Task.Describes (c : Crawler) (x : Call Crawler) : Task → Prop
  | fail => x.Panics
  | nodes mem ns => x = Krpc.onFindNodeResponse mem c ns
  | reply pkts => x = .ok { c with outPackets := c.outPackets ++ pkts }
  | fetch pkts req => x = .ok { c with outPackets := c.outPackets ++ pkts, requests := c.requests ++ [req] }

/-- The nodes are those of a response, and a query is answered once at most. -/
def Task.Stems (p : Packet AddrPort) : Task → Prop
  | fail => True
  | nodes mem ns => mem = p.buf ∧ ∃ res, newFindNodeResponse p = .ok (some res) ∧ res.nodes = ns
  | reply pkts => pkts.length ≤ 1
  | fetch pkts _ => pkts.length ≤ 1

/-- The task is what both models of a handler do with the packet. -/
structure Task.Agrees (cfg : Config) (p : Packet AddrPort) (task : Task) (prog : Body)
    (alone : Crawler → Call Crawler) : Prop where
  body : prog = task.body cfg
  alone : ∀ c, c.nodeID = cfg.nodeID → task.Describes c (alone c)
  stems : task.Stems p

section Shape
variable {cfg : Config} {p : Packet AddrPort} {addr : AddrPort}

/-- The packet that is queued, if it can be encoded. -/
def packets (mem : Bytes) (data : Dict Slice) (addr : AddrPort) : List OutPacket :=
  match bEncode (.map (loadEntries (Slice.read mem) data)) with
  | .error _ => []
  | .ok encoded => [⟨encoded,addr⟩]

theorem length_packets (mem : Bytes) (data : Dict Slice) : (packets mem data addr).length ≤ 1 := by
  unfold packets
  split <;> simp

theorem sendPacket_eq (mem : Bytes) (data : Dict Slice) (next : Body) :
    sendPacket mem data addr next = sendAll (packets mem data addr) next := by
  unfold sendPacket packets
  split <;> rfl

theorem sendPacket_alone (c : Crawler) (mem : Bytes) (data : Dict Slice) :
    Krpc.sendPacket c mem data addr = { c with outPackets := c.outPackets ++ packets mem data addr } := by
  unfold Krpc.sendPacket packets
  cases bEncode (.map (loadEntries (Slice.read mem) data)) with
  | error e => exact congrArg (fun l => { c with outPackets := l }) (List.append_nil _).symm
  | ok encoded => rfl

theorem cut_ne_hang (mem : Bytes) (s : Slice) (lo hi : ℕ) : cut mem s lo hi ≠ .hang := by
  unfold cut
  split
  · cases s <;> simp
  · simp

theorem getNeighbourID_ne_hang (mem : Bytes) (s : Slice) (nodeID : Bytes) : getNeighbourID mem s nodeID ≠ .hang := by
  unfold getNeighbourID
  refine Outcome.bind_ne_hang (cut_ne_hang _ _ _ _) fun front => ?_
  split <;> simp

theorem newNodeFromRaw_ne_hang (mem : Bytes) (raw : Slice) : newNodeFromRaw mem raw ≠ .hang := by
  unfold newNodeFromRaw getIP getPort
  refine Outcome.bind_ne_hang (cut_ne_hang _ _ _ _) fun _ => ?_
  refine Outcome.bind_ne_hang (cut_ne_hang _ _ _ _) fun _ => ?_
  refine Outcome.bind_ne_hang (cut_ne_hang _ _ _ _) fun _ => ?_
  refine Outcome.bind_ne_hang (by split <;> simp) fun _ => ?_
  exact Outcome.bind_ne_hang (by split <;> simp) fun _ => by simp

theorem rawNodesFrom_ne_hang (mem : Bytes) (raw : Slice) (n i : ℕ) : rawNodesFrom mem raw n i ≠ .hang := by
  induction n generalizing i with
  | zero => simp [rawNodesFrom]
  | succ n ih =>
    rw [rawNodesFrom]
    split
    · refine Outcome.bind_ne_hang (cut_ne_hang _ _ _ _) fun _ => ?_
      refine Outcome.bind_ne_hang (newNodeFromRaw_ne_hang _ _) fun _ => ?_
      exact Outcome.bind_ne_hang (ih _) fun _ => by simp
    · simp

theorem newFindNodeResponse_ne_hang (p : Packet AddrPort) : newFindNodeResponse p ≠ .hang := by
  have hentry : ∀ m key, assertEntry m key ≠ .hang := by
    intro m key
    rcases assertEntry_cases m key with ⟨s,h,-⟩ | ⟨h,-⟩ <;> simp [h]
  unfold newFindNodeResponse Packet.getT
  refine Outcome.bind_ne_hang ?_ fun tid => ?_
  · rcases getBytes_cases p (ascii "t") with ⟨s,h,-,-⟩ | ⟨h,-⟩ <;> simp [h]
  · split
    · refine Outcome.bind_ne_hang (hentry _ _) fun _ => ?_
      refine Outcome.bind_ne_hang (hentry _ _) fun _ => ?_
      exact Outcome.bind_ne_hang (rawNodesFrom_ne_hang _ _ _ _) fun _ => by simp
    · simp

/-- A call that does not hang goes on in both models, or fails in both. -/
theorem exists_task_ofCall {α : Type} {x : Call α} (hx : x ≠ .hang) {next : α → Body}
    {alone : α → Crawler → Call Crawler} (h : ∀ a, x = .ok a → ∃ task : Task, task.Agrees cfg p (next a) (alone a)) :
    ∃ task : Task, task.Agrees cfg p (ofCall x next) (fun c => x >>= fun a => alone a c) := by
  cases x with
  | ok a => exact h a rfl
  | error e => cases e
  | panic q => exact ⟨.fail,rfl,fun c _ => ⟨q,rfl⟩,trivial⟩
  | hang => exact absurd rfl hx

theorem agrees_ignored : (Task.reply []).Agrees cfg p .done .ok := by
  refine ⟨rfl,fun c _ => ?_,Nat.zero_le 1⟩
  rw [Task.Describes,List.append_nil]

theorem agrees_reply (mem : Bytes) (data : Dict Slice) :
    (Task.reply (packets mem data addr)).Agrees cfg p (sendPacket mem data addr .done)
      (fun c => .ok (Krpc.sendPacket c mem data addr)) :=
  ⟨sendPacket_eq mem data .done,fun c _ => congrArg Outcome.ok (sendPacket_alone c mem data),
    length_packets mem data⟩

theorem agrees_fetch (mem : Bytes) (data : Dict Slice) (infoHash : Bytes) (a : FetchAddr) :
    (Task.fetch (packets mem data addr) ⟨cfg.nodeID,infoHash,a⟩).Agrees cfg p
      (sendPacket mem data addr (push cfg ⟨cfg.nodeID,infoHash,a⟩))
      (fun c => .ok { Krpc.sendPacket c mem data addr with
        requests := (Krpc.sendPacket c mem data addr).requests ++
          [⟨(Krpc.sendPacket c mem data addr).nodeID,infoHash,a⟩] }) := by
  refine ⟨sendPacket_eq mem data _,fun c hc => ?_,length_packets mem data⟩
  simp only [Task.Describes,sendPacket_alone,hc]

theorem getBytes_ne_hang (p : Packet AddrPort) (key : Bytes) : p.getBytes key ≠ .hang := by
  rcases getBytes_cases p key with ⟨s,h,-,-⟩ | ⟨h,-⟩ <;> simp [h]

theorem getString_ne_hang (p : Packet AddrPort) (key : Bytes) : p.getString key ≠ .hang := by
  rcases getString_cases p key with ⟨s,h,-,-⟩ | ⟨h,-⟩ <;> simp [h]

theorem exists_task_neighbourID (mem : Bytes) (target : Slice) {next : Slice × Bytes → Body}
    {alone : Slice × Bytes → Crawler → Call Crawler} (h : ∀ a, ∃ task : Task, task.Agrees cfg p (next a) (alone a)) :
    ∃ task : Task, task.Agrees cfg p (ofCall (getNeighbourID mem target cfg.nodeID) next)
      (fun c => getNeighbourID mem target c.nodeID >>= fun a => alone a c) := by
  obtain ⟨task,hbody,hdesc,hstems⟩ := exists_task_ofCall (getNeighbourID_ne_hang mem target cfg.nodeID) fun a _ => h a
  refine ⟨task,hbody,fun c hc => ?_,hstems⟩
  have hc' := hdesc c hc
  rw [← hc] at hc'
  exact hc'

theorem exists_task_getPeers (cfg : Config) (p : Packet AddrPort) (addr : AddrPort) :
    ∃ task : Task, task.Agrees cfg p (onGetPeersRequest cfg p addr) (Krpc.onGetPeersRequest · p addr) := by
  unfold onGetPeersRequest Krpc.onGetPeersRequest
  refine exists_task_ofCall (getBytes_ne_hang p _) fun tid _ => ?_
  cases tid with
  | none => exact ⟨_,agrees_ignored⟩
  | some tid =>
    cases getPeersInfoHash p.data with
    | none => exact ⟨_,agrees_ignored⟩
    | some nid =>
      exact exists_task_neighbourID p.buf nid fun (nodeID,mem) => ⟨_,agrees_reply mem _⟩

theorem exists_task_announcePeer (cfg : Config) (p : Packet AddrPort) (addr : AddrPort) :
    ∃ task : Task, task.Agrees cfg p (onAnnouncePeerRequest cfg p addr) (Krpc.onAnnouncePeerRequest · p addr) := by
  unfold onAnnouncePeerRequest Krpc.onAnnouncePeerRequest
  refine exists_task_ofCall (getBytes_ne_hang p _) fun tid _ => ?_
  exact exists_task_neighbourID p.buf _ fun (nodeID,mem) => ⟨_,agrees_fetch mem _ _ _⟩

theorem exists_task_response (cfg : Config) (p : Packet AddrPort) :
    ∃ task : Task, task.Agrees cfg p (onResponse cfg p) (Krpc.onResponse · p) := by
  unfold onResponse Krpc.onResponse
  split
  · refine exists_task_ofCall (newFindNodeResponse_ne_hang p) fun res hres => ?_
    cases res with
    | none => exact ⟨.fail,rfl,fun c _ => ⟨.nilDereference,rfl⟩,trivial⟩
    | some res => exact ⟨.nodes p.buf res.nodes,rfl,fun c _ => rfl,rfl,res,hres,rfl⟩
  · exact ⟨_,agrees_ignored⟩

/-- A handler takes on one task, and it is the one that the model without channels performs. -/
theorem exists_task (cfg : Config) (p : Packet AddrPort) (addr : AddrPort) :
    ∃ task : Task, task.Agrees cfg p (onMessage cfg p addr) (Krpc.onMessage · p addr) := by
  unfold onMessage Krpc.onMessage
  refine exists_task_ofCall (getString_ne_hang p _) fun y _ => ?_
  split
  · exact exists_task_response cfg p
  · split
    · unfold onQuery Krpc.onQuery
      refine exists_task_ofCall (getString_ne_hang p _) fun q _ => ?_
      split
      · exact exists_task_getPeers cfg p addr
      · split
        · exact exists_task_announcePeer cfg p addr
        · exact ⟨_,agrees_ignored⟩
    · exact ⟨_,agrees_ignored⟩

end Shape

section Alone

/-- A single handler that nothing runs beside: what it sends stays queued, the cache answers for the
nodes, and the filter says yes so that requests are queued for the check. -/
def alone : Host Crawler Message Answer where
  send
    | .neighbours, n, c => { c with neighbours := c.neighbours ++ [n.node] }
    | .outPackets, pkt, c => { c with outPackets := c.outPackets ++ [pkt] }
    | .uncheckedChan, req, c => { c with requests := c.requests ++ [req] }
    | .socket, _, c => c
    | .tick, _, c => c
    | .rawPackets, _, c => c
    | .decodedPackets, _, c => c
    | .tasks, _, c => c
  length
    | .neighbours, c => c.neighbours.length
    | _, _ => 0
  answer
    | .seen addr, c => some ((c.seenNodes.get addr).isSome,c)
    | .see addr, c => (c.seenNodes.set addr ()).map fun seen => ((),{ c with seenNodes := seen })
    | .exists _, c => some (true,c)
    | .findOne _, _ => none
    | .wait, _ => none
    | .request, _ => none
    | .write _, _ => none
    | .pull _, _ => none

section
variable (c : Crawler)

theorem alone_outPackets (pkt : OutPacket) :
    alone.send .outPackets pkt c = { c with outPackets := c.outPackets ++ [pkt] } := rfl
theorem alone_neighbours (n : Neighbour) :
    alone.send .neighbours n c = { c with neighbours := c.neighbours ++ [n.node] } := rfl
theorem alone_length : alone.length .neighbours c = c.neighbours.length := rfl
theorem alone_seen (addr : AddrPort) : alone.answer (.seen addr) c = some ((c.seenNodes.get addr).isSome,c) := rfl
theorem alone_see (addr : AddrPort) : alone.answer (.see addr) c =
    (c.seenNodes.set addr ()).map fun seen => ((),{ c with seenNodes := seen }) := rfl

end

/-- The value that a call returned. -/
def returned : Call Crawler → Option Crawler
  | .ok c => some c
  | _ => none

/-- The crawler was made from the configuration. -/
structure Configured (cfg : Config) (c : Crawler) : Prop where
  nodeID : c.nodeID = cfg.nodeID
  maxQueueSize : c.maxQueueSize = cfg.maxQueueSize

theorem exec_sendAll (pkts : List OutPacket) (next : Body) (c : Crawler) :
    (sendAll pkts next).exec alone c = next.exec alone { c with outPackets := c.outPackets ++ pkts } := by
  induction pkts generalizing c with
  | nil => rw [sendAll,List.append_nil]
  | cons pkt pkts ih =>
    rw [sendAll,Prog.exec,ih,alone_outPackets]
    simp only [List.append_assoc,List.singleton_append]

theorem exec_findNode {cfg : Config} {c : Crawler} (hc : Configured cfg c) (mem : Bytes) (nodes : List Node) :
    (onFindNodeResponse cfg mem nodes).exec alone c = returned (Krpc.onFindNodeResponse mem c nodes) := by
  induction nodes generalizing c with
  | nil => rfl
  | cons node nodes ih =>
    have hfull : 0 < cfg.maxQueueSize.toInt ∧ cfg.maxQueueSize.toInt ≤ c.neighbours.length ↔ queueFull c = true := by
      simp only [queueFull,hc.maxQueueSize,Bool.and_eq_true,decide_eq_true_eq]
    have hwanted : Krpc.wanted c mem node = wanted cfg mem node := by rw [Krpc.wanted,wanted,hc.nodeID]
    rw [onFindNodeResponse,Krpc.onFindNodeResponse,Prog.exec,hwanted,alone_length]
    by_cases hq : queueFull c = true
    · rw [if_pos (hfull.mpr hq),if_pos hq]
      rfl
    rw [if_neg (mt hfull.mp hq),if_neg hq]
    by_cases hw : wanted cfg mem node = true
    · rw [if_pos hw,if_pos hw,Prog.exec,alone_seen]
      cases hget : c.seenNodes.get node.addr with
      | some u => exact ih hc
      | none =>
        dsimp only [Option.isSome]
        rw [if_neg Bool.false_ne_true,Prog.exec,alone_see]
        cases hset : c.seenNodes.set node.addr () with
        | none => rfl
        | some seen =>
          dsimp only [Option.map]
          rw [Prog.exec,alone_neighbours]
          exact ih ⟨hc.nodeID,hc.maxQueueSize⟩
    · rw [if_neg hw,if_neg hw]
      exact ih hc

/-- Run alone, a handler of the network does what the handler without channels does. -/
theorem handlerLoop_alone {cfg : Config} {c : Crawler} (hc : Configured cfg c) (p : Packet AddrPort) :
    (handlerLoop cfg p).exec alone c = returned (Krpc.onMessage c p p.addr) := by
  obtain ⟨task,hbody,hdesc,-⟩ := exists_task cfg p p.addr
  rw [handlerLoop,hbody]
  have hd : task.Describes c (Krpc.onMessage c p p.addr) := hdesc c hc.nodeID
  cases task with
  | fail =>
    obtain ⟨q,hq⟩ := hd
    rw [hq]
    rfl
  | nodes mem ns =>
    rw [show Krpc.onMessage c p p.addr = _ from hd]
    exact exec_findNode hc mem ns
  | reply pkts =>
    rw [show Krpc.onMessage c p p.addr = _ from hd,Task.body,exec_sendAll]
    rfl
  | fetch pkts req =>
    rw [show Krpc.onMessage c p p.addr = _ from hd,Task.body,exec_sendAll]
    rfl

/-- One goroutine of each kind, and unbuffered channels for packets and nodes. -/
def sampleConfig : Config := ⟨List.replicate 20 0,[localPeer],0,0,2,1,1,1,1⟩

theorem announcement_handled_alone :
    (handlerLoop sampleConfig announcement).exec alone idleCrawler =
      returned (Krpc.onMessage idleCrawler announcement localPeer) :=
  handlerLoop_alone ⟨rfl,rfl⟩ announcement

end Alone

end DhtOcean.Pipeline
