import DhtOcean.Crawler.Pipeline
import DhtOcean.Foundation.Transition
import DhtOcean.Krpc.Exchange

/-! # The memory that nodes share

The nodes of a response are slices of its datagram. The request to a node is put
together inside the datagram, while a handler may still be reading the nodes behind
it; bootstrap nodes are slices of the crawler's own ID. Here every array is kept as
it is now. The requests turn out to be those of nodes with copies of their own,
which is how the pipeline has them.
-/
namespace DhtOcean.Sharing
open Foundation Bencode Krpc Pipeline

/-- The own ID and the datagrams of all responses are `arrays`, in this order. A node comes with the
number of its array. -/
structure State where
  arrays : List Bytes
  handlers : List (ℕ × List Node)
  neighbours : List (ℕ × Node)
  nextTransactionID : UInt32
  outPackets : List OutPacket

def newState (cfg : Config) : State := ⟨[cfg.nodeID],[],[],0,[]⟩

/-- What the cache answers, and when a handler finds the queue full, is left open. -/
inductive Event
  | bootstrap (i : ℕ)
  | receive (buf : Bytes) (addr : AddrPort)
  | look (i : ℕ) (seen : Bool)
  | stop (i : ℕ)
  | ask (target : Vector UInt8 20)

/-- The nodes that a handler goes through. -/
def foundNodes (buf : Bytes) (addr : AddrPort) : Call (List Node) :=
  match (newPacketFromBuffer buf addr).decode with
  | .ok p => do
    let y ← p.getY
    if y = ascii "r" then
      if checkMapPath p.data (ascii "r.nodes") then
        match ← newFindNodeResponse p with
        | none => .panic .nilDereference
        | some res => return res.nodes
      else return []
    else return []
  | .error _ => return []
  | .panic q => .panic q
  | .hang => .hang

def ahead (handlers : List (ℕ × List Node)) : List (ℕ × Node) := handlers.flatMap (fun h => h.2.map (h.1,·))

namespace State
variable (cfg : Config) (s : State)

def own : Bytes := s.arrays.headD []

def receive (buf : Bytes) (addr : AddrPort) : Option State :=
  match foundNodes buf addr with
  | .ok nodes => some { s with
      arrays := s.arrays ++ [buf]
      handlers := s.handlers ++ [(s.arrays.length,nodes)] }
  | _ => none

def look (i : ℕ) (seen : Bool) : Option State := do
  let (d,nodes) ← s.handlers[i]?
  match nodes with
  | [] => none
  | node :: nodes => do
    let mem ← s.arrays[d]?
    let queued := Pipeline.wanted { cfg with nodeID := s.own } mem node && !seen
    return { s with
      handlers := s.handlers.set i (d,nodes)
      neighbours := s.neighbours ++ if queued then [(d,node)] else [] }

/-- One round of `neighbourLoop`, with the ID that `GenerateNodeID` made for the target. -/
def ask (target : Vector UInt8 20) : Option State :=
  match s.neighbours with
  | [] => none
  | (d,node) :: rest => do
    let mem ← s.arrays[d]?
    match getNeighbourID mem node.nodeID s.own with
    | .ok (nodeID,mem) =>
      let req := setT (newFindNodeRequest nodeID target.toList) (.owned (beBytes 4 s.nextTransactionID.toNat))
      return { s with
        arrays := s.arrays.set d mem
        neighbours := rest
        nextTransactionID := s.nextTransactionID + 1
        outPackets := s.outPackets ++ packets mem req node.addr }
    | _ => none

def step : Event → Option State
  | .bootstrap i => do
    let addr ← cfg.bootstrapNodes[i]?
    return { s with neighbours := s.neighbours ++ [(0,⟨.view 0 s.own.length,addr⟩)] }
  | .receive buf addr => s.receive buf addr
  | .look i seen => s.look cfg i seen
  | .stop i => some { s with handlers := s.handlers.eraseIdx i }
  | .ask target => s.ask target

/-- The same step of nodes with copies of their own: nobody else sees what is written into them. -/
def copyStep : Event → Option State
  | .ask target => (s.ask target).map (fun t => { t with arrays := s.arrays })
  | e => s.step cfg e

/-- The same state with other arrays. -/
def withArrays (arrays : List Bytes) : State := { s with arrays := arrays }

/-- The nodes to ask, and those that handlers have not looked at yet. -/
def pending : List (ℕ × Node) := s.neighbours ++ ahead s.handlers

end State

section Spans
variable {mem : Bytes} {off len : ℕ}

def nodeSpans (nodes : List Node) : List Span := nodes.flatMap (fun node => node.nodeID.spans)

theorem newNodeFromRaw_id {node : Node} (h : newNodeFromRaw mem (.view off len) = .ok node) :
    node.nodeID = .view off 20 := by
  unfold newNodeFromRaw at h
  obtain ⟨nodeID,hid,h⟩ := Outcome.bind_eq_ok.mp h
  obtain ⟨rawIP,-,h⟩ := Outcome.bind_eq_ok.mp h
  obtain ⟨rawPort,-,h⟩ := Outcome.bind_eq_ok.mp h
  obtain ⟨ip,-,h⟩ := Outcome.bind_eq_ok.mp h
  obtain ⟨port,-,h⟩ := Outcome.bind_eq_ok.mp h
  cases h
  unfold cut at hid
  split at hid
  · cases hid
    rfl
  · cases hid

/-- The IDs of the nodes lie in their records, one behind the other. -/
theorem rawNodesFrom_packed {n i : ℕ} {nodes : List Node} (h : rawNodesFrom mem (.view off len) n i = .ok nodes) :
    (∀ node ∈ nodes, ∃ start, node.nodeID = .view start 20) ∧
    Packed (off + i*rawNodeLength) (off + len) (nodeSpans nodes) := by
  induction n generalizing i nodes with
  | zero =>
    cases h
    exact ⟨by simp,.nil⟩
  | succ n ih =>
    rw [rawNodesFrom] at h
    split at h
    · rename_i hi
      obtain ⟨raw,hraw,h⟩ := Outcome.bind_eq_ok.mp h
      obtain ⟨node,hnode,h⟩ := Outcome.bind_eq_ok.mp h
      obtain ⟨rest,hrest,h⟩ := Outcome.bind_eq_ok.mp h
      cases h
      obtain ⟨hviews,hpacked⟩ := ih hrest
      obtain rfl : Slice.view (off + i*rawNodeLength) ((i+1)*rawNodeLength - i*rawNodeLength) = raw := by
        unfold cut at hraw
        split at hraw
        · exact Outcome.ok.inj hraw
        · cases hraw
      have hid := newNodeFromRaw_id hnode
      refine ⟨List.forall_mem_cons.mpr ⟨⟨_,hid⟩,hviews⟩,?_⟩
      simp only [Slice.length] at hi
      have hnext : off + (i+1)*rawNodeLength = off + i*rawNodeLength + 26 := by
        unfold rawNodeLength
        omega
      have hfirst : Packed (off + i*rawNodeLength) (off + (i+1)*rawNodeLength) node.nodeID.spans := by
        rw [hid]
        refine .single le_rfl ?_
        rw [hnext]
        exact Nat.add_le_add_left (show 20 ≤ 26 by decide) _
      exact hfirst.append hpacked (by omega) (by omega)
    · cases h
      exact ⟨by simp,.nil⟩

theorem newFindNodeResponse_nodes {p : Packet AddrPort} (hp : Produced p.buf.length (.map p.data))
    {res : FindNodeResponse} (h : newFindNodeResponse p = .ok (some res)) :
    ∃ off len n, rawNodesFrom p.buf (.view off len) n 0 = .ok res.nodes ∧ off + len ≤ p.buf.length := by
  unfold newFindNodeResponse at h
  obtain ⟨tid,-,h⟩ := Outcome.bind_eq_ok.mp h
  split at h
  · rename_i m hr
    obtain ⟨target,-,h⟩ := Outcome.bind_eq_ok.mp h
    obtain ⟨raw,hraw,h⟩ := Outcome.bind_eq_ok.mp h
    obtain ⟨nodes,hnodes,h⟩ := Outcome.bind_eq_ok.mp h
    cases h
    rcases assertEntry_cases m (ascii "nodes") with ⟨s,hs,hl⟩ | ⟨hs,-⟩
    · cases hs.symm.trans hraw
      obtain ⟨off,len,rfl,hle⟩ := ((hp.of_lookup hr).of_lookup hl).view
      exact ⟨off,len,_,hnodes,hle⟩
    · cases hs.symm.trans hraw
  · cases h

theorem foundNodes_packed {buf : Bytes} {addr : AddrPort} {nodes : List Node}
    (h : foundNodes buf addr = .ok nodes) :
    (∀ node ∈ nodes, ∃ start, node.nodeID = .view start 20) ∧ Packed 0 buf.length (nodeSpans nodes) := by
  unfold foundNodes at h
  split at h
  · rename_i p hdecode
    obtain ⟨hbuf,-⟩ := decode_apart hdecode
    obtain ⟨y,-,h⟩ := Outcome.bind_eq_ok.mp h
    split at h
    · split at h
      · obtain ⟨res,hres,h⟩ := Outcome.bind_eq_ok.mp h
        cases res with
        | none => cases h
        | some res =>
          cases h
          obtain ⟨off,len,n,hnodes,hle⟩ := newFindNodeResponse_nodes (Packet.decode_produced hdecode) hres
          obtain ⟨hviews,hpacked⟩ := rawNodesFrom_packed hnodes
          exact ⟨hviews,hpacked.mono (Nat.zero_le _) (hbuf ▸ hle)⟩
      · cases h
        exact ⟨by simp,.nil⟩
    · cases h
      exact ⟨by simp,.nil⟩
  · cases h
    exact ⟨by simp,.nil⟩
  · cases h
  · cases h

end Spans

/-- A request for nodes near a target, under the ID that the crawler has at this neighbour. -/
def findNode (tid id target : Bytes) : Datum :=
  .dict [(ascii "a",.dict [(ascii "id",.bytes id),(ascii "target",.bytes target)]),
    (ascii "q",.bytes (ascii "find_node")),(ascii "t",.bytes tid),(ascii "y",.bytes (ascii "q"))]

def findNodeValue (tid id target : Bytes) : Value Bytes :=
  .map [(ascii "y",.str (ascii "q")),(ascii "q",.str (ascii "find_node")),
    (ascii "a",.map [(ascii "id",.bytes id),(ascii "target",.bytes target)]),(ascii "t",.bytes tid)]

theorem findNodeValue_means {tid id target : Bytes} (htid : tid.length < 2^63) (hid : id.length < 2^63)
    (htarget : target.length < 2^63) :
    ∃ w, bEncode (findNodeValue tid id target) = .ok w ∧ Means w (findNode tid id target) := by
  have hkeys : [ascii "y",ascii "q",ascii "a",ascii "t"].Nodup := by decide
  have hargs : [ascii "id",ascii "target"].Nodup := by decide
  refine means_bEncode (.map hkeys (by simp [ascii]) ?_) rfl
  simp only [List.mem_cons,List.not_mem_nil,or_false,forall_eq_or_imp,forall_eq]
  refine ⟨.str (by decide),.str (by decide),.map hargs (by simp [ascii]) ?_,.bytes htid⟩
  simp only [List.mem_cons,List.not_mem_nil,or_false,forall_eq_or_imp,forall_eq]
  exact ⟨.bytes hid,.bytes htarget⟩

theorem packets_findNode {mem tid target w : Bytes} {nodeID : Slice}
    (h : bEncode (findNodeValue tid (nodeID.read mem) target) = .ok w) (addr : AddrPort) :
    packets mem (setT (newFindNodeRequest nodeID target) (.owned tid)) addr = [⟨w,addr⟩] := by
  have hencode : bEncode (.map (loadEntries (Slice.read mem) (setT (newFindNodeRequest nodeID target) (.owned tid)))) =
      .ok w := h
  rw [packets,hencode]

/-- The text of the request to a node with this ID. -/
def Requests (tid nodeID own target w : Bytes) : Prop :=
  bEncode (findNodeValue tid (neighbourID nodeID own) target) = .ok w

section Ask
variable {s : State} {d start : ℕ} {node : Node} {rest : List (ℕ × Node)} {mem : Bytes} {target : Vector UInt8 20}

/-- A node is asked by the ID that its array has now, and the second half of it is written over. -/
theorem ask_eq (hneighbours : s.neighbours = (d,node) :: rest) (hnode : node.nodeID = .view start 20)
    (hmem : s.arrays[d]? = some mem) (hroom : start + 20 ≤ mem.length) (hown : s.own.length = 20) {w : Bytes}
    (hw : Requests (beBytes 4 s.nextTransactionID.toNat) (node.nodeID.read mem) s.own target.toList w) :
    ∃ mem', s.ask target = some ⟨s.arrays.set d mem',s.handlers,rest,s.nextTransactionID + 1,
        s.outPackets ++ [⟨w,node.addr⟩]⟩ ∧ mem'.length = mem.length ∧
      (Slice.view start 20).read mem' = neighbourID (node.nodeID.read mem) s.own ∧
      ∀ start' l, Span.Apart ⟨start',l⟩ ⟨start,20⟩ →
        (Slice.view start' l).read mem' = (Slice.view start' l).read mem := by
  obtain ⟨mem',hneighbour,hlength,hread,hkeep⟩ := @getNeighbourID_room mem s.own start 20 hown (by omega) hroom
  refine ⟨mem',?_,hlength,hnode ▸ hread,hkeep⟩
  rw [Requests,hnode,← hread] at hw
  simp only [State.ask,hneighbours,hmem,hnode,hneighbour,Option.bind_eq_bind,Option.bind_some,Option.pure_def,
    packets_findNode hw]

end Ask

/-- The loop of the pipeline sends the same request for a node with a copy of its array. -/
theorem neighbourLoop_eq {cfg : Config} {mem : Bytes} {node : Node} {start : ℕ} (hown : cfg.nodeID.length = 20)
    (hnode : node.nodeID = .view start 20) (hroom : start + 20 ≤ mem.length) :
    ∃ send : Bytes × Bytes → List OutPacket,
      neighbourLoop cfg ⟨mem,node⟩ = .ask .wait (fun _ => .ask .request (fun r => sendAll (send r) .done)) ∧
      ∀ target tid w, Requests tid (node.nodeID.read mem) cfg.nodeID target w → send (target,tid) = [⟨w,node.addr⟩] := by
  obtain ⟨mem',hneighbour,-,hread,-⟩ := @getNeighbourID_room mem cfg.nodeID start 20 hown (by omega) hroom
  refine ⟨fun r => packets mem' (setT (newFindNodeRequest (.view start 20) r.1) (.owned r.2)) node.addr,?_,?_⟩
  · rw [neighbourLoop,hnode,hneighbour]
    simp only [ofCall,sendPacket_eq]
  · intro target tid w hw
    rw [Requests,hnode,← hread] at hw
    exact packets_findNode hw node.addr

/-- Nodes of the same datagram have their IDs apart. -/
def Clear (a b : ℕ × Node) : Prop :=
  a.1 = b.1 → a.1 ≠ 0 → ∀ x ∈ a.2.nodeID.spans, ∀ y ∈ b.2.nodeID.spans, x.Apart y

def Event.datagram : Event → List Bytes
  | .receive buf _ => [buf]
  | _ => []

/-- The arrays as they came: the own ID and the datagrams so far. -/
def received (cfg : Config) (events : List Event) : List Bytes := cfg.nodeID :: events.flatMap Event.datagram

/-- The node of this ID and address is a bootstrap node, or some response names it. -/
def Named (cfg : Config) (events : List Event) (nodeID : Bytes) (addr : AddrPort) : Prop :=
  (nodeID = cfg.nodeID ∧ addr ∈ cfg.bootstrapNodes) ∨
  ∃ buf sender nodes node, .receive buf sender ∈ events ∧ foundNodes buf sender = .ok nodes ∧ node ∈ nodes ∧
    node.nodeID.read buf = nodeID ∧ node.addr = addr

/-- A node that is still to be looked at or asked has its ID as it was received. -/
structure Intact (cfg : Config) (events : List Event) (arrays : List Bytes) (n : ℕ × Node) (start : ℕ)
    (mem mem' : Bytes) : Prop where
  id : n.2.nodeID = .view start 20
  now : arrays[n.1]? = some mem
  came : (received cfg events)[n.1]? = some mem'
  length : mem.length = mem'.length
  room : start + 20 ≤ mem.length
  read : (Slice.view start 20).read mem = (Slice.view start 20).read mem'
  named : Named cfg events ((Slice.view start 20).read mem') n.2.addr

/-- All such nodes do, and what is written for one of them leaves the others alone. -/
structure Kept (cfg : Config) (events : List Event) (s : State) : Prop where
  own : s.arrays[0]? = some cfg.nodeID
  length : s.arrays.length = (received cfg events).length
  intact : ∀ n ∈ s.pending, ∃ start mem mem', Intact cfg events s.arrays n start mem mem'
  clear : s.pending.Pairwise Clear
  count : s.nextTransactionID = UInt32.ofNat s.outPackets.length
  sent : ∀ k pkt, s.outPackets[k]? = some pkt → ∃ nodeID target, Named cfg events nodeID pkt.addr ∧
    Means pkt.data (findNode (beBytes 4 (k % 2^32)) (neighbourID nodeID cfg.nodeID) target)

section Simulation
variable {cfg : Config} {events : List Event} {s : State}

theorem Clear.symm {a b : ℕ × Node} (h : Clear a b) : Clear b a := by
  intro heq hne x hx y hy
  exact Or.symm (h heq.symm (heq ▸ hne) y hy x hx)

theorem received_snoc (cfg : Config) (events : List Event) (e : Event) :
    received cfg (events ++ [e]) = received cfg events ++ e.datagram := by
  rw [received,List.flatMap_append,List.flatMap_singleton]
  rfl

theorem received_same (cfg : Config) (events : List Event) {e : Event} (he : e.datagram = []) :
    received cfg (events ++ [e]) = received cfg events := by
  rw [received_snoc,he,List.append_nil]

theorem received_of_some {d : ℕ} {mem : Bytes} (h : (received cfg events)[d]? = some mem) (e : Event) :
    (received cfg (events ++ [e]))[d]? = some mem := by
  rw [received_snoc,List.getElem?_append_left (List.getElem?_eq_some_iff.mp h).1,h]

theorem Named.snoc {nodeID : Bytes} {addr : AddrPort} (h : Named cfg events nodeID addr) (e : Event) :
    Named cfg (events ++ [e]) nodeID addr := by
  rcases h with h | ⟨buf,sender,nodes,node,hmem,h⟩
  · exact .inl h
  · exact .inr ⟨buf,sender,nodes,node,List.mem_append_left _ hmem,h⟩

/-- Nodes that are pending already, and new ones. -/
theorem Kept.next (hs : Kept cfg events s) (e : Event) {handlers : List (ℕ × List Node)} {neighbours : List (ℕ × Node)}
    {new : List (ℕ × Node)}
    (hpending : (State.pending ⟨s.arrays ++ e.datagram,handlers,neighbours,s.nextTransactionID,s.outPackets⟩).Subperm
      (new ++ s.pending))
    (hintact : ∀ n ∈ new, ∃ start mem mem', Intact cfg (events ++ [e]) (s.arrays ++ e.datagram) n start mem mem')
    (hnew : new.Pairwise Clear) (hcross : ∀ a ∈ new, ∀ b ∈ s.pending, Clear a b) :
    Kept cfg (events ++ [e]) ⟨s.arrays ++ e.datagram,handlers,neighbours,s.nextTransactionID,s.outPackets⟩ := by
  have hleft : ∀ {d : ℕ} {mem : Bytes}, s.arrays[d]? = some mem → (s.arrays ++ e.datagram)[d]? = some mem := by
    intro d mem h
    rw [List.getElem?_append_left (List.getElem?_eq_some_iff.mp h).1,h]
  refine ⟨hleft hs.own,?_,?_,?_,hs.count,?_⟩
  · rw [List.length_append,received_snoc,List.length_append,hs.length]
  · intro n hn
    rcases List.mem_append.mp (hpending.subset hn) with hn | hn
    · exact hintact n hn
    · obtain ⟨start,mem,mem',h⟩ := hs.intact n hn
      exact ⟨start,mem,mem',h.id,hleft h.now,received_of_some h.came e,h.length,h.room,h.read,h.named.snoc e⟩
  · obtain ⟨l,hl,hsub⟩ := hpending
    have hall := List.pairwise_append.mpr ⟨hnew,hs.clear,hcross⟩
    exact (hl.pairwise_iff Clear.symm).mp (hall.sublist hsub)
  · intro k pkt hpkt
    obtain ⟨nodeID,target,hnamed,hmeans⟩ := hs.sent k pkt hpkt
    exact ⟨nodeID,target,hnamed.snoc e,hmeans⟩

theorem own_eq {mem : Bytes} (h : s.arrays[0]? = some mem) : s.own = mem := by
  unfold State.own
  cases harrays : s.arrays with
  | nil => simp [harrays] at h
  | cons a l =>
    rw [harrays] at h
    exact Option.some.inj h

theorem Kept.own_eq (hs : Kept cfg events s) :
    s.own = cfg.nodeID ∧ (s.withArrays (received cfg events)).own = cfg.nodeID := ⟨Sharing.own_eq hs.own,rfl⟩

/-- The state does with a step what it does with copies, and goes on. -/
def Simulates (cfg : Config) (events : List Event) (s : State) (e : Event) : Prop :=
  (s.withArrays (received cfg events)).copyStep cfg e = (s.step cfg e).map (·.withArrays (received cfg (events ++ [e]))) ∧
    ∀ t, s.step cfg e = some t → Kept cfg (events ++ [e]) t

theorem Kept.bootstrap (hs : Kept cfg events s) (hn : cfg.nodeID.length = 20) (i : ℕ) :
    Simulates cfg events s (.bootstrap i) := by
  obtain ⟨hown,hown'⟩ := hs.own_eq
  have hnone : (Event.bootstrap i).datagram = [] := rfl
  have hsame := received_same cfg events hnone
  simp only [Simulates,State.copyStep,State.step,hown,hown',hsame,hn]
  cases haddr : cfg.bootstrapNodes[i]? with
  | none => exact ⟨rfl,by simp⟩
  | some addr =>
    refine ⟨rfl,?_⟩
    rintro t ⟨⟩
    have hpending : (s.neighbours ++ [(0,(⟨.view 0 20,addr⟩ : Node))] ++ ahead s.handlers).Subperm
        ([(0,(⟨.view 0 20,addr⟩ : Node))] ++ s.pending) := by
      rw [State.pending,← List.append_assoc]
      exact (List.perm_append_comm.append_right _).subperm
    have hkept := hs.next (.bootstrap i) hpending ?_ (List.pairwise_singleton _ _) ?_
    · rwa [hnone,List.append_nil] at hkept
    · intro n hmem
      obtain rfl := List.mem_singleton.mp hmem
      refine ⟨0,cfg.nodeID,cfg.nodeID,rfl,?_,rfl,rfl,by omega,rfl,.inl ⟨?_,List.mem_of_getElem? haddr⟩⟩
      · rw [hnone,List.append_nil]
        exact hs.own
      · exact List.take_of_length_le hn.le
    · intro a ha b _ _ hne
      obtain rfl := List.mem_singleton.mp ha
      exact absurd rfl hne

theorem Kept.pending_lt (hs : Kept cfg events s) {n : ℕ × Node} (hn : n ∈ s.pending) : n.1 < s.arrays.length := by
  obtain ⟨start,mem,mem',h⟩ := hs.intact n hn
  exact (List.getElem?_eq_some_iff.mp h.now).1

theorem Kept.receive (hs : Kept cfg events s) (buf : Bytes) (addr : AddrPort) :
    Simulates cfg events s (.receive buf addr) := by
  have hmore : received cfg (events ++ [.receive buf addr]) = received cfg events ++ [buf] := received_snoc cfg events _
  simp only [Simulates,State.copyStep,State.step,State.receive,hmore]
  cases hfound : foundNodes buf addr with
  | error e => exact ⟨rfl,by simp⟩
  | panic q => exact ⟨rfl,by simp⟩
  | hang => exact ⟨rfl,by simp⟩
  | ok nodes =>
    refine ⟨by simp only [State.withArrays,hs.length,Option.map_some],?_⟩
    rintro t ⟨⟩
    obtain ⟨hviews,hpacked⟩ := foundNodes_packed hfound
    have hpending : (s.neighbours ++ ahead (s.handlers ++ [(s.arrays.length,nodes)])).Subperm
        (nodes.map (s.arrays.length,·) ++ s.pending) := by
      rw [ahead,List.flatMap_append,List.flatMap_singleton,State.pending,← List.append_assoc]
      exact List.perm_append_comm.subperm
    refine hs.next (.receive buf addr) hpending ?_ ?_ ?_
    · rintro n hn
      obtain ⟨node,hnode,rfl⟩ := List.mem_map.mp hn
      obtain ⟨start,hid⟩ := hviews node hnode
      have hspan : (⟨start,20⟩ : Span) ∈ nodeSpans nodes := by
        refine List.mem_flatMap.mpr ⟨node,hnode,?_⟩
        rw [hid]
        exact List.mem_singleton_self _
      have hcame : (received cfg (events ++ [.receive buf addr]))[s.arrays.length]? = some buf := by
        rw [hmore,hs.length]
        simp
      refine ⟨start,buf,buf,hid,by simp [Event.datagram],hcame,rfl,(hpacked.within _ hspan).2,rfl,.inr ?_⟩
      exact ⟨buf,addr,nodes,node,List.mem_append_right _ List.mem_cons_self,hfound,hnode,by rw [hid],rfl⟩
    · refine List.pairwise_map.mpr ((List.pairwise_flatMap.mp hpacked.apart).2.imp ?_)
      intro a b hab _ _
      exact hab
    · intro a ha b hb heq
      obtain ⟨node,-,rfl⟩ := List.mem_map.mp ha
      exact absurd heq (hs.pending_lt hb).ne'

theorem subperm_middle {α : Type} (a : α) (taken : Bool) (l l' : List α) :
    ((if taken then [a] else []) ++ (l ++ l')).Subperm (l ++ a :: l') := by
  have hmiddle : (a :: (l ++ l')).Subperm (l ++ a :: l') := List.perm_middle.symm.subperm
  cases taken with
  | true => exact hmiddle
  | false => exact (List.sublist_cons_self _ _).subperm.trans hmiddle

/-- The node that a handler looks at is queued or dropped. -/
theorem pending_look {i d : ℕ} {node : Node} {nodes : List Node} (hi : s.handlers[i]? = some (d,node :: nodes))
    (queued : Bool) :
    (s.neighbours ++ (if queued then [(d,node)] else []) ++ ahead (s.handlers.set i (d,nodes))).Subperm s.pending ∧
      (d,node) ∈ s.pending := by
  obtain ⟨hlt,hget⟩ := List.getElem?_eq_some_iff.mp hi
  have hsplit : s.handlers = s.handlers.take i ++ (d,node :: nodes) :: s.handlers.drop (i+1) := by
    rw [← hget,← List.drop_eq_getElem_cons hlt,List.take_append_drop]
  have hold : s.pending = s.neighbours ++ (ahead (s.handlers.take i) ++
      (d,node) :: (nodes.map (d,·) ++ ahead (s.handlers.drop (i+1)))) := by
    rw [State.pending]
    conv_lhs => rw [hsplit]
    simp [ahead]
  refine ⟨?_,by rw [hold]; simp⟩
  rw [hold,List.set_eq_take_append_cons_drop,if_pos hlt,ahead,List.flatMap_append,List.flatMap_cons,List.append_assoc]
  exact (List.subperm_append_left _).mpr (subperm_middle _ _ _ _)

/-- What is looked at or asked was pending before. -/
theorem Kept.shrink (hs : Kept cfg events s) {e : Event} (he : e.datagram = []) {handlers : List (ℕ × List Node)}
    {neighbours : List (ℕ × Node)}
    (hpending : (neighbours ++ ahead handlers).Subperm s.pending) :
    Kept cfg (events ++ [e]) ⟨s.arrays,handlers,neighbours,s.nextTransactionID,s.outPackets⟩ := by
  have hkept := @Kept.next cfg events s hs e handlers neighbours [] hpending (by simp) .nil (by simp)
  rwa [he,List.append_nil] at hkept

theorem Kept.look (hs : Kept cfg events s) (i : ℕ) (seen : Bool) : Simulates cfg events s (.look i seen) := by
  obtain ⟨hown,hown'⟩ := hs.own_eq
  have hnone : (Event.look i seen).datagram = [] := rfl
  have hsame := received_same cfg events hnone
  simp only [Simulates,State.copyStep,State.step,State.look,hown,hown',hsame]
  cases hi : s.handlers[i]? with
  | none =>
    have hi' : (s.withArrays (received cfg events)).handlers[i]? = none := hi
    simp [hi']
  | some h =>
    have hi' : (s.withArrays (received cfg events)).handlers[i]? = some h := hi
    obtain ⟨d,nodes⟩ := h
    cases nodes with
    | nil => simp [hi']
    | cons node nodes =>
      obtain ⟨start,mem,mem',h⟩ := hs.intact (d,node) (pending_look hi true).2
      have hcame : (s.withArrays (received cfg events)).arrays[d]? = some mem' := h.came
      have hwanted : Pipeline.wanted cfg mem' node = Pipeline.wanted cfg mem node := by
        rw [Pipeline.wanted,Pipeline.wanted,h.id,h.read]
      simp only [hi',h.now,hcame,Option.bind_eq_bind,Option.bind_some,Option.pure_def,Option.map_some]
      refine ⟨?_,?_⟩
      · rw [hwanted]
        rfl
      · rintro t ⟨⟩
        exact hs.shrink hnone (pending_look hi _).1

theorem Kept.stop (hs : Kept cfg events s) (i : ℕ) : Simulates cfg events s (.stop i) := by
  have hnone : (Event.stop i).datagram = [] := rfl
  have hsame := received_same cfg events hnone
  refine ⟨by rw [hsame]; rfl,?_⟩
  rintro t ⟨⟩
  refine hs.shrink hnone (List.Sublist.subperm ?_)
  exact (List.Sublist.flatMap (List.eraseIdx_sublist _ _) _).append_left _

theorem length_neighbourID_le (nodeID own : Bytes) (hown : own.length = 20) : (neighbourID nodeID own).length ≤ 20 := by
  rw [neighbourID,List.length_append,List.length_drop,hown]
  have := List.length_take_le 10 nodeID
  omega

/-- The ID of the crawler is written over itself. -/
theorem own_intact {own mem : Bytes} {start : ℕ} (hown : own.length = 20) (hlength : mem.length = own.length)
    (hroom : start + 20 ≤ own.length)
    (hread : (Slice.view start 20).read mem = neighbourID ((Slice.view start 20).read own) own) : mem = own := by
  obtain rfl : start = 0 := by omega
  simp only [Slice.read,List.drop_zero] at hread
  rw [List.take_of_length_le (by omega),List.take_of_length_le (by omega)] at hread
  rw [hread,neighbourID,List.take_append_drop]

/-- A node that is asked leaves all the others intact. -/
theorem Intact.set {d start start' : ℕ} {n : ℕ × Node} {mem₀ mem₁ mem mem' : Bytes}
    (hn : Intact cfg events s.arrays n start' mem mem') (hd : s.arrays[d]? = some mem₀)
    (hlength : mem₁.length = mem₀.length) (hother : d = 0 → mem₁ = mem₀)
    (hapart : d ≠ 0 → n.1 = d → Span.Apart ⟨start',20⟩ ⟨start,20⟩)
    (hkeep : ∀ a l, Span.Apart ⟨a,l⟩ ⟨start,20⟩ → (Slice.view a l).read mem₁ = (Slice.view a l).read mem₀) :
    ∃ mem, Intact cfg events (s.arrays.set d mem₁) n start' mem mem' := by
  by_cases hnd : n.1 = d
  · have hlt := (List.getElem?_eq_some_iff.mp hd).1
    have hnow := hn.now
    rw [hnd] at hnow
    cases hd.symm.trans hnow
    have hread : (Slice.view start' 20).read mem₁ = (Slice.view start' 20).read mem₀ := by
      by_cases h0 : d = 0
      · rw [hother h0]
      · exact hkeep start' 20 (hapart h0 hnd)
    refine ⟨mem₁,hn.id,?_,hn.came,hlength.trans hn.length,hlength ▸ hn.room,hread.trans hn.read,hn.named⟩
    rw [hnd,List.getElem?_set_self hlt]
  · refine ⟨mem,hn.id,?_,hn.came,hn.length,hn.room,hn.read,hn.named⟩
    rw [List.getElem?_set_ne (Ne.symm hnd)]
    exact hn.now

theorem ask_nil (h : s.neighbours = []) (target : Vector UInt8 20) : s.ask target = none := by
  rw [State.ask,h]

/-- The state behind a request: `mem` was written into array `d`. -/
def asked (s : State) (d : ℕ) (mem : Bytes) (rest : List (ℕ × Node)) (pkt : OutPacket) : State :=
  ⟨s.arrays.set d mem,s.handlers,rest,s.nextTransactionID + 1,s.outPackets ++ [pkt]⟩

theorem Kept.asked (hs : Kept cfg events s) (hown : cfg.nodeID.length = 20) {d start : ℕ} {node : Node}
    {rest : List (ℕ × Node)} (hneighbours : s.neighbours = (d,node) :: rest) {mem mem' : Bytes}
    (h : Intact cfg events s.arrays (d,node) start mem mem') {mem₁ w : Bytes} (hlength : mem₁.length = mem.length)
    (hread : (Slice.view start 20).read mem₁ = neighbourID ((Slice.view start 20).read mem) cfg.nodeID)
    (hkeep : ∀ a l, Span.Apart ⟨a,l⟩ ⟨start,20⟩ → (Slice.view a l).read mem₁ = (Slice.view a l).read mem)
    {target : Bytes} (hmeans : Means w (findNode (beBytes 4 s.nextTransactionID.toNat)
      (neighbourID ((Slice.view start 20).read mem) cfg.nodeID) target)) {e : Event} (he : e.datagram = []) :
    Kept cfg (events ++ [e]) (Sharing.asked s d mem₁ rest ⟨w,node.addr⟩) := by
  have hpending : s.pending = (d,node) :: (rest ++ ahead s.handlers) := by
    rw [State.pending,hneighbours,List.cons_append]
  obtain ⟨hfirst,hrest⟩ := List.pairwise_cons.mp (hpending ▸ hs.clear)
  have hzero : d = 0 → mem₁ = mem := by
    rintro rfl
    cases hs.own.symm.trans h.now
    exact own_intact hown hlength h.room hread
  refine ⟨?_,?_,?_,hrest,?_,?_⟩
  · rw [Sharing.asked,List.getElem?_set]
    split
    · rename_i hd
      subst hd
      rw [if_pos (List.getElem?_eq_some_iff.mp hs.own).1,hzero rfl,← h.now,hs.own]
    · exact hs.own
  · rw [Sharing.asked,List.length_set,received_same cfg events he,hs.length]
  · intro n hn
    obtain ⟨start',mem₂,mem₂',hn'⟩ := hs.intact n (hpending ▸ List.mem_cons_of_mem _ hn)
    have hapart : d ≠ 0 → n.1 = d → Span.Apart ⟨start',20⟩ ⟨start,20⟩ := by
      intro hd hnd
      refine Or.symm (hfirst n hn hnd.symm hd ⟨start,20⟩ ?_ ⟨start',20⟩ ?_)
      · rw [h.id]
        exact List.mem_singleton_self _
      · rw [hn'.id]
        exact List.mem_singleton_self _
    obtain ⟨mem₃,hset⟩ := hn'.set h.now hlength hzero hapart hkeep
    exact ⟨start',mem₃,mem₂',hset.id,hset.now,received_of_some hset.came e,hset.length,hset.room,hset.read,
      hset.named.snoc e⟩
  · simp only [Sharing.asked,hs.count,List.length_append,List.length_singleton]
    rw [UInt32.ofNat_add]
    rfl
  · intro k pkt hpkt
    rw [Sharing.asked,List.getElem?_append] at hpkt
    split at hpkt
    · obtain ⟨nodeID,target,hnamed,hmeans⟩ := hs.sent k pkt hpkt
      exact ⟨nodeID,target,hnamed.snoc e,hmeans⟩
    · obtain ⟨hk,rfl⟩ := List.getElem?_eq_some_iff.mp hpkt
      obtain rfl : k = s.outPackets.length := by
        rw [List.length_singleton] at hk
        omega
      refine ⟨(Slice.view start 20).read mem,target,?_,?_⟩
      · rw [h.read]
        simpa using h.named.snoc e
      · rw [hs.count,UInt32.toNat_ofNat'] at hmeans
        simpa using hmeans

theorem Kept.head (hs : Kept cfg events s) {d : ℕ} {node : Node} {rest : List (ℕ × Node)}
    (hneighbours : s.neighbours = (d,node) :: rest) : ∃ start mem mem', Intact cfg events s.arrays (d,node) start mem mem' := by
  apply hs.intact
  rw [State.pending,hneighbours]
  exact List.mem_cons_self

theorem exists_request {own : Bytes} (hown : own.length = 20) (nextTransactionID : UInt32) (nodeID : Bytes)
    (target : Vector UInt8 20) :
    ∃ w, Requests (beBytes 4 nextTransactionID.toNat) nodeID own target.toList w ∧
      Means w (findNode (beBytes 4 nextTransactionID.toNat) (neighbourID nodeID own) target.toList) :=
  findNodeValue_means (by rw [length_beBytes]; decide) ((length_neighbourID_le _ _ hown).trans_lt (by decide))
    (by rw [Vector.length_toList]; decide)

theorem Kept.ask (hs : Kept cfg events s) (hown : cfg.nodeID.length = 20) (target : Vector UInt8 20) :
    Simulates cfg events s (.ask target) := by
  have hnone : (Event.ask target).datagram = [] := rfl
  have hsame := received_same cfg events hnone
  obtain ⟨hnow,hcame⟩ := hs.own_eq
  simp only [Simulates,State.copyStep,State.step,hsame]
  cases hneighbours : s.neighbours with
  | nil =>
    have hover : (s.withArrays (received cfg events)).neighbours = [] := hneighbours
    rw [ask_nil hneighbours,ask_nil hover]
    exact ⟨rfl,by simp⟩
  | cons n rest =>
    obtain ⟨d,node⟩ := n
    have hover : (s.withArrays (received cfg events)).neighbours = (d,node) :: rest := hneighbours
    obtain ⟨start,mem,mem',h⟩ := hs.head hneighbours
    obtain ⟨w,hw,hmeans⟩ := exists_request hown s.nextTransactionID ((Slice.view start 20).read mem) target
    -- The request is the same for the array as it is now and as it came.
    have hrequest : ∀ arrays mem₂, (Slice.view start 20).read mem₂ = (Slice.view start 20).read mem →
        (s.withArrays arrays).own = cfg.nodeID → Requests (beBytes 4 (s.withArrays arrays).nextTransactionID.toNat)
          (node.nodeID.read mem₂) (s.withArrays arrays).own target.toList w := by
      intro arrays mem₂ hread hown
      rw [h.id,hread,hown]
      exact hw
    obtain ⟨mem₁,hask,hlength,hread,hkeep⟩ := ask_eq hneighbours h.id h.now h.room (hnow ▸ hown)
      (hrequest s.arrays mem rfl hnow)
    obtain ⟨mem₂,hask',-⟩ := ask_eq hover h.id h.came (h.length ▸ h.room) (hcame ▸ hown)
      (hrequest (received cfg events) mem' h.read.symm hcame)
    rw [hask,hask']
    refine ⟨rfl,?_⟩
    rintro t ⟨⟩
    rw [h.id,hnow] at hread
    exact hs.asked hown hneighbours h hlength hread hkeep hmeans hnone

/-- The loop of the pipeline, given the node with its datagram as it came, sends the packet that is sent here. -/
theorem Kept.neighbourLoop (hs : Kept cfg events s) (hown : cfg.nodeID.length = 20) {d : ℕ} {node : Node}
    {rest : List (ℕ × Node)} (hneighbours : s.neighbours = (d,node) :: rest) :
    ∃ (mem : Bytes) (send : Bytes × Bytes → List OutPacket), (received cfg events)[d]? = some mem ∧
      Pipeline.neighbourLoop cfg ⟨mem,node⟩ = .ask .wait (fun _ => .ask .request (fun r => sendAll (send r) .done)) ∧
      ∀ target, ∃ t, s.step cfg (.ask target) = some t ∧
        t.outPackets = s.outPackets ++ send (target.toList,beBytes 4 s.nextTransactionID.toNat) := by
  obtain ⟨start,mem,mem',h⟩ := hs.head hneighbours
  obtain ⟨send,hloop,hsend⟩ := neighbourLoop_eq hown h.id (h.length ▸ h.room)
  refine ⟨mem',send,h.came,hloop,?_⟩
  intro target
  obtain ⟨w,hw,-⟩ := exists_request hown s.nextTransactionID ((Slice.view start 20).read mem) target
  obtain ⟨mem₁,hask,-⟩ := ask_eq hneighbours h.id h.now h.room (hs.own_eq.1 ▸ hown)
    (by rw [hs.own_eq.1,h.id]; exact hw)
  refine ⟨_,hask,?_⟩
  rw [hsend _ _ w (by rw [h.id,← h.read]; exact hw)]

theorem Kept.simulates (hs : Kept cfg events s) (hown : cfg.nodeID.length = 20) (e : Event) :
    Simulates cfg events s e := by
  cases e with
  | bootstrap i => exact hs.bootstrap hown i
  | receive buf addr => exact hs.receive buf addr
  | look i seen => exact hs.look i seen
  | stop i => exact hs.stop i
  | ask target => exact hs.ask hown target

theorem kept_newState (cfg : Config) : Kept cfg [] (newState cfg) :=
  ⟨rfl,rfl,by simp [State.pending,newState,ahead],.nil,rfl,by simp [newState]⟩

/-- The simulation along a run. -/
theorem Kept.run (hs : Kept cfg events s) (hown : cfg.nodeID.length = 20) (more : List Event) :
    run (State.copyStep cfg) (s.withArrays (received cfg events)) more =
      (run (State.step cfg) s more).map (·.withArrays (received cfg (events ++ more))) ∧
    ∀ t, run (State.step cfg) s more = some t → Kept cfg (events ++ more) t := by
  induction more generalizing events s with
  | nil =>
    rw [List.append_nil]
    refine ⟨rfl,?_⟩
    rintro t ⟨⟩
    exact hs
  | cons e more ih =>
    obtain ⟨hcopy,hkept⟩ := hs.simulates hown e
    simp only [Foundation.run,hcopy]
    cases hstep : s.step cfg e with
    | none => exact ⟨rfl,by simp⟩
    | some t =>
      have hmore := ih (hkept t hstep)
      rwa [List.append_assoc,List.singleton_append] at hmore

end Simulation

/-- Whatever the order in which handlers and the loop run, the nodes they queue and the packets they send
are those of nodes with copies of their own; and for a node with such a copy the loop of the pipeline sends the
same packet. -/
theorem sharing_unseen (cfg : Config) (hown : cfg.nodeID.length = 20) (events : List Event) :
    (run (State.step cfg) (newState cfg) events).map (·.withArrays []) =
      (run (State.copyStep cfg) (newState cfg) events).map (·.withArrays []) ∧
    ∀ s d node rest, run (State.step cfg) (newState cfg) events = some s → s.neighbours = (d,node) :: rest →
      ∃ (mem : Bytes) (send : Bytes × Bytes → List OutPacket), (received cfg events)[d]? = some mem ∧
        Pipeline.neighbourLoop cfg ⟨mem,node⟩ = .ask .wait (fun _ => .ask .request (fun r => sendAll (send r) .done)) ∧
        ∀ target, ∃ t, s.step cfg (.ask target) = some t ∧
          t.outPackets = s.outPackets ++ send (target.toList,beBytes 4 s.nextTransactionID.toNat) := by
  obtain ⟨hcopy,hkept⟩ := (kept_newState cfg).run hown events
  rw [show (newState cfg).withArrays (received cfg []) = newState cfg from rfl] at hcopy
  constructor
  · rw [hcopy,Option.map_map]
    rfl
  · intro s d node rest hrun hneighbours
    exact (hkept s hrun).neighbourLoop hown hneighbours

/-- A response with two nodes, and an octet behind them for the loop to find both. -/
def twoNodes : Bytes :=
  ascii "d1:rd2:id20:cccccccccccccccccccc5:nodes53:aaaaaaaaaaaaaaaaaaaa" ++ [10,0,0,1,26,225] ++
    ascii "bbbbbbbbbbbbbbbbbbbb" ++ [10,0,0,2,26,225] ++ ascii "xe1:y1:re"

def sampleTarget : Vector UInt8 20 := Vector.replicate 20 7

/-- The first node is asked while the second one has not been looked at. -/
def crossing : List Event :=
  [.bootstrap 0,.receive twoNodes localPeer,.ask sampleTarget,.look 0 false,.ask sampleTarget,.look 0 false,
    .ask sampleTarget]

theorem crossing_runs : (run (State.step sampleConfig) (newState sampleConfig) crossing).any
    (fun s => s.outPackets.map OutPacket.addr ==
      [localPeer,⟨.v4 #v[10,0,0,1],6881⟩,⟨.v4 #v[10,0,0,2],6881⟩]) = true := by decide +kernel

theorem crossing_unseen :
    (run (State.step sampleConfig) (newState sampleConfig) crossing).isSome = true ∧
    (run (State.step sampleConfig) (newState sampleConfig) crossing).map (·.withArrays []) =
      (run (State.copyStep sampleConfig) (newState sampleConfig) crossing).map (·.withArrays []) :=
  ⟨Option.isSome_of_any crossing_runs,(sharing_unseen sampleConfig rfl crossing).1⟩

/-- Every request is sent to a node that was named, under the ID that the node was named by, and the
transaction IDs count up. -/
theorem requests_as_named (cfg : Config) (hown : cfg.nodeID.length = 20) (events : List Event) (s : State)
    (hrun : run (State.step cfg) (newState cfg) events = some s) (k : ℕ) (pkt : OutPacket)
    (hpkt : s.outPackets[k]? = some pkt) :
    ∃ nodeID target, Named cfg events nodeID pkt.addr ∧
      Means pkt.data (findNode (beBytes 4 (k % 2^32)) (neighbourID nodeID cfg.nodeID) target) :=
  (((kept_newState cfg).run hown events).2 s hrun).sent k pkt hpkt

theorem crossing_named : ∃ s pkt, run (State.step sampleConfig) (newState sampleConfig) crossing = some s ∧
    s.outPackets[2]? = some pkt ∧ pkt.addr = ⟨.v4 #v[10,0,0,2],6881⟩ ∧
    ∃ nodeID target, Named sampleConfig crossing nodeID pkt.addr ∧
      Means pkt.data (findNode [0,0,0,2] (neighbourID nodeID sampleConfig.nodeID) target) := by
  obtain ⟨s,hrun,haddrs⟩ := (Option.any_eq_true _ _).mp crossing_runs
  have haddrs := eq_of_beq haddrs
  have htwo := congrArg (·[2]?) haddrs
  obtain ⟨pkt,hpkt,haddr⟩ := Option.map_eq_some_iff.mp (List.getElem?_map.symm.trans htwo)
  exact ⟨s,pkt,hrun,hpkt,haddr,requests_as_named sampleConfig rfl crossing s hrun 2 pkt hpkt⟩

end DhtOcean.Sharing
