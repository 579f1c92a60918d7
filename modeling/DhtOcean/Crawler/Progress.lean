import DhtOcean.Crawler.Pipeline

/-! # The pipeline neither deadlocks nor runs for ever

Channels are ordered from the socket to the tasks, and every loop sends upwards
only. As long as the datagrams that arrive are harmless no goroutine panics in its own
code, some goroutine can go on while there is work unless a call does not return, and
every datagram causes a bounded number of steps. Once goroutines are told to return
this is no longer so: one that sends on a channel whose readers have returned stays
blocked.
-/
namespace DhtOcean.Pipeline
open Foundation Bencode Krpc

theorem decode_keeps {p p' : Packet AddrPort} (h : p.decode = .ok p') : p'.buf = p.buf ∧ p'.addr = p.addr := by
  unfold Packet.decode at h
  split at h <;> cases h
  exact ⟨rfl,rfl⟩

/-- Decoding returns, and so does handling what is decoded. -/
def Survivable (p : Packet AddrPort) : Prop := ¬ KeyClash p.buf ∧ ∀ p', p.decode = .ok p' → Handleable p'

def Harmless : (c : Chan) → Message c → Prop
  | .socket, datagram => Survivable (newPacketFromBuffer datagram.1 datagram.2)
  | .rawPackets, p => Survivable p
  | .decodedPackets, p => Handleable p ∧ Produced p.buf.length (.map p.data)
  | .neighbours, n => 10 ≤ n.node.nodeID.cap n.mem
  | .tick, _ => True
  | .outPackets, _ => True
  | .uncheckedChan, _ => True
  | .tasks, _ => True

def rank : Chan → ℕ
  | .socket => 0
  | .tick => 0
  | .rawPackets => 1
  | .decodedPackets => 2
  | .neighbours => 3
  | .uncheckedChan => 3
  | .outPackets => 4
  | .tasks => 4

section Nodes
variable {mem : Bytes}

theorem cut_cap {s s' : Slice} {hi : ℕ} (h : cut mem s 0 hi = .ok s') : hi ≤ s'.cap mem := by
  unfold cut at h
  split at h
  · rename_i hcap
    cases s with
    | view off len =>
      cases h
      simpa [Slice.cap] using hcap.2
    | owned b =>
      cases h
      simpa [Slice.cap] using hcap.2
  · cases h

theorem newNodeFromRaw_cap {raw : Slice} {node : Node} (h : newNodeFromRaw mem raw = .ok node) :
    20 ≤ node.nodeID.cap mem := by
  unfold newNodeFromRaw at h
  obtain ⟨nodeID,hid,h⟩ := Outcome.bind_eq_ok.mp h
  obtain ⟨rawIP,-,h⟩ := Outcome.bind_eq_ok.mp h
  obtain ⟨rawPort,-,h⟩ := Outcome.bind_eq_ok.mp h
  obtain ⟨ip,-,h⟩ := Outcome.bind_eq_ok.mp h
  obtain ⟨port,-,h⟩ := Outcome.bind_eq_ok.mp h
  cases h
  exact cut_cap hid

/-- Every node has its ID in the datagram, and the records of all of them are in the byte string. -/
theorem rawNodesFrom_spec {raw : Slice} {n i : ℕ} {nodes : List Node} (h : rawNodesFrom mem raw n i = .ok nodes) :
    (∀ node ∈ nodes, 20 ≤ node.nodeID.cap mem) ∧ nodes.length*rawNodeLength ≤ raw.length - i*rawNodeLength := by
  induction n generalizing i nodes with
  | zero =>
    cases h
    simp
  | succ n ih =>
    rw [rawNodesFrom] at h
    split at h
    · rename_i hi
      obtain ⟨record,-,h⟩ := Outcome.bind_eq_ok.mp h
      obtain ⟨node,hnode,h⟩ := Outcome.bind_eq_ok.mp h
      obtain ⟨rest,hrest,h⟩ := Outcome.bind_eq_ok.mp h
      cases h
      obtain ⟨hcap,hlen⟩ := ih hrest
      refine ⟨List.forall_mem_cons.mpr ⟨newNodeFromRaw_cap hnode,hcap⟩,?_⟩
      rw [List.length_cons]
      unfold rawNodeLength at *
      omega
    · cases h
      simp

theorem newFindNodeResponse_spec {p : Packet AddrPort} {res : FindNodeResponse}
    (h : newFindNodeResponse p = .ok (some res)) :
    (∀ node ∈ res.nodes, 20 ≤ node.nodeID.cap p.buf) ∧
    (Produced p.buf.length (.map p.data) → res.nodes.length*rawNodeLength ≤ p.buf.length) := by
  unfold newFindNodeResponse at h
  obtain ⟨tid,-,h⟩ := Outcome.bind_eq_ok.mp h
  split at h
  · rename_i m hr
    obtain ⟨target,-,h⟩ := Outcome.bind_eq_ok.mp h
    obtain ⟨raw,hraw,h⟩ := Outcome.bind_eq_ok.mp h
    obtain ⟨nodes,hnodes,h⟩ := Outcome.bind_eq_ok.mp h
    cases h
    obtain ⟨hcap,hlen⟩ := rawNodesFrom_spec hnodes
    refine ⟨hcap,fun hp => ?_⟩
    rcases assertEntry_cases m (ascii "nodes") with ⟨s,hs,hl⟩ | ⟨hs,-⟩
    · cases hs.symm.trans hraw
      obtain ⟨off,len,rfl,hle⟩ := ((hp.of_lookup hr).of_lookup hl).view
      change nodes.length*rawNodeLength ≤ p.buf.length
      simp only [Slice.length,Nat.zero_mul,Nat.sub_zero] at hlen
      omega
    · cases hs.symm.trans hraw
  · cases h

end Nodes

section Layers
variable {cfg : Config} {ok : (c : Chan) → Message c → Prop}

theorem keeps_sendAll {pkts : List OutPacket} {next : Body} (hout : ∀ pkt, ok .outPackets pkt)
    (hnext : next.Keeps ok) : (sendAll pkts next).Keeps ok := by
  induction pkts with
  | nil => exact hnext
  | cons pkt pkts ih => exact ⟨hout pkt,ih⟩

theorem keeps_sendNodes {nodes : List Neighbour} (h : ∀ n ∈ nodes, ok .neighbours n) : (sendNodes nodes).Keeps ok := by
  induction nodes with
  | nil => trivial
  | cons n nodes ih =>
    obtain ⟨hn,hnodes⟩ := List.forall_mem_cons.mp h
    exact ⟨hn,ih hnodes⟩

theorem keeps_findNode {mem : Bytes} {nodes : List Node} (h : ∀ node ∈ nodes, ok .neighbours ⟨mem,node⟩) :
    (onFindNodeResponse cfg mem nodes).Keeps ok := by
  induction nodes with
  | nil => trivial
  | cons node nodes ih =>
    obtain ⟨hnode,hnodes⟩ := List.forall_mem_cons.mp h
    intro n
    dsimp only
    split
    · trivial
    · split
      · intro seen
        cases seen with
        | true => exact ih hnodes
        | false => exact fun _ => ⟨hnode,ih hnodes⟩
      · exact ih hnodes

theorem keeps_commit {req : TorrentRequest} (h : ok .tasks req) : (commit cfg req).Keeps ok := by
  intro n
  dsimp only
  split
  · trivial
  · exact ⟨h,trivial⟩

theorem keeps_push {req : TorrentRequest} (hunchecked : ok .uncheckedChan req) (htasks : ok .tasks req) :
    (push cfg req).Keeps ok := by
  intro exist
  cases exist with
  | true => exact ⟨hunchecked,trivial⟩
  | false => exact keeps_commit htasks

theorem keeps_sendPacket {mem : Bytes} {data : Dict Slice} {addr : AddrPort} {next : Body}
    (hout : ∀ pkt, ok .outPackets pkt) (hnext : next.Keeps ok) : (sendPacket mem data addr next).Keeps ok := by
  rw [sendPacket_eq]
  exact keeps_sendAll hout hnext

theorem keeps_handlerLoop {p : Packet AddrPort} (hid : cfg.nodeID.length = 20) (hp : Handleable p)
    (hproduced : Produced p.buf.length (.map p.data)) (hout : ∀ pkt, ok .outPackets pkt)
    (hunchecked : ∀ req, ok .uncheckedChan req) (htasks : ∀ req, ok .tasks req)
    (hnodes : ∀ n : Neighbour, 10 ≤ n.node.nodeID.cap n.mem → ok .neighbours n) : (handlerLoop cfg p).Keeps ok := by
  obtain ⟨task,hbody,halone,hstems⟩ := exists_task cfg p p.addr
  rw [handlerLoop,hbody]
  cases task with
  | fail =>
    -- A crawler with these parameters would panic on the packet.
    let c : Crawler := ⟨cfg.nodeID,cfg.maxQueueSize,[],.newLRWCache 0 0 false,[],[]⟩
    exact absurd (halone c rfl) ((onMessage_safe_iff_handleable p.addr (c := c) hid hproduced).mpr hp)
  | nodes mem ns =>
    obtain ⟨rfl,res,hres,rfl⟩ := hstems
    refine keeps_findNode fun node hnode => hnodes _ ?_
    exact le_trans (by norm_num) ((newFindNodeResponse_spec hres).1 node hnode)
  | reply pkts => exact keeps_sendAll hout trivial
  | fetch pkts req => exact keeps_sendAll hout (keeps_push (hunchecked req) (htasks req))

theorem keeps_neighbourLoop {n : Neighbour} (hid : cfg.nodeID.length = 20) (hn : 10 ≤ n.node.nodeID.cap n.mem)
    (hout : ∀ pkt, ok .outPackets pkt) : (neighbourLoop cfg n).Keeps ok := by
  intro _
  dsimp only
  cases hcall : getNeighbourID n.mem n.node.nodeID cfg.nodeID with
  | ok r => exact fun answer => keeps_sendPacket hout trivial
  | error e => cases e
  | panic q =>
    have hpanics : (getNeighbourID n.mem n.node.nodeID cfg.nodeID).Panics := ⟨q,hcall⟩
    rw [getNeighbourID_panics_iff hid] at hpanics
    omega
  | hang => exact absurd hcall (getNeighbourID_ne_hang _ _ _)

theorem keeps_decodeLoop {p : Packet AddrPort} (hp : Survivable p)
    (hdecoded : ∀ p', Handleable p' → Produced p'.buf.length (.map p'.data) → ok .decodedPackets p') :
    (decodeLoop p).Keeps ok := by
  unfold decodeLoop
  cases hd : p.decode with
  | ok p' => exact ⟨hdecoded p' (hp.2 p' hd) (Packet.decode_produced hd),trivial⟩
  | error e => trivial
  | panic q => exact absurd ((p.decode_eq_panic_iff q).mp hd).2 hp.1
  | hang => exact absurd hd p.decode_ne_hang

/-- Harmless messages are answered by harmless ones on channels further up. -/
theorem network_layered (hid : cfg.nodeID.length = 20) : (network cfg).Layered Harmless rank := by
  intro c m hm
  cases c with
  | socket => exact ⟨⟨hm,by decide⟩,trivial⟩
  | tick =>
    intro n
    dsimp only
    split
    · refine keeps_sendNodes fun n hn => ⟨?_,by decide⟩
      obtain ⟨addr,-,rfl⟩ := List.mem_map.mp hn
      simp [Harmless,Slice.cap,hid]
    · trivial
  | rawPackets => exact keeps_decodeLoop hm fun p' hp hproduced => ⟨⟨hp,hproduced⟩,by decide⟩
  | decodedPackets =>
    exact keeps_handlerLoop hid hm.1 hm.2 (fun _ => ⟨trivial,by decide⟩) (fun _ => ⟨trivial,by decide⟩)
      (fun _ => ⟨trivial,by decide⟩) (fun n hn => ⟨hn,by decide⟩)
  | neighbours => exact keeps_neighbourLoop hid hm fun _ => ⟨trivial,by decide⟩
  | outPackets =>
    change (sendLoop m).Keeps _
    unfold sendLoop
    split
    · trivial
    · split
      · trivial
      · exact fun _ => trivial
  | uncheckedChan =>
    intro result
    cases result with
    | found => trivial
    | noDocuments => exact keeps_commit ⟨trivial,by decide⟩
    | failed => trivial
  | tasks => exact fun _ => trivial

end Layers

/-- Some goroutine takes each kind of message. -/
structure Staffed (cfg : Config) : Prop where
  decoder : 0 < cfg.decoderThreads
  handler : 0 < cfg.handlerThreads
  worker : 0 < cfg.torrentWorkers

theorem Staffed.served {cfg : Config} (h : Staffed cfg) (c : Chan) : ∃ g, (network cfg).home g = c := by
  have hpos : 0 < threads cfg c := by
    cases c with
    | rawPackets => exact h.decoder
    | decodedPackets => exact h.handler
    | tasks => exact h.worker
    | _ => exact Nat.one_pos
  exact ⟨⟨c,0,hpos⟩,rfl⟩

theorem sane_of_reaches {cfg : Config} (hid : cfg.nodeID.length = 20) {s : NetState (Goroutine cfg) Message Answer}
    (hs : (network cfg).Reaches Harmless .start s) : Network.Sane (network cfg) Harmless rank s :=
  (Network.sane_start (network cfg) Harmless rank).reaches (network_layered hid) hs

section Sample

theorem sampleConfig_staffed : Staffed sampleConfig := ⟨Nat.one_pos,Nat.one_pos,Nat.one_pos⟩

/-- A datagram without any field. -/
def emptyDict : Message .socket := (ascii "de",localPeer)

theorem emptyDict_decode : (newPacketFromBuffer emptyDict.1 emptyDict.2).decode = .ok ⟨ascii "de",[],localPeer⟩ := rfl

/-- A datagram is harmless if some crawler has handled it. -/
theorem harmless_of_handled {d : Message .socket} {p : Packet AddrPort} {c c' : Crawler} (hid : c.nodeID.length = 20)
    (hdecode : (newPacketFromBuffer d.1 d.2).decode = .ok p) (h : Krpc.onMessage c p d.2 = .ok c') :
    Harmless .socket d := by
  refine ⟨?_,?_⟩
  · intro hclash
    have hpanic := ((newPacketFromBuffer d.1 d.2).decode_eq_panic_iff .typeAssertion).mpr ⟨rfl,hclash⟩
    rw [hdecode] at hpanic
    cases hpanic
  · intro p' hp'
    cases hdecode.symm.trans hp'
    refine (onMessage_safe_iff_handleable d.2 hid (Packet.decode_produced hdecode)).mp ?_
    rw [h]
    exact Outcome.ok_not_panics c'

theorem emptyDict_harmless : Harmless .socket emptyDict :=
  have hmessage : Krpc.onMessage idleCrawler ⟨ascii "de",[],localPeer⟩ emptyDict.2 = .ok idleCrawler := rfl
  harmless_of_handled rfl emptyDict_decode hmessage

/-- The goroutine of a channel. -/
def sole (c : Chan) : Goroutine sampleConfig := ⟨c,0,by cases c <;> exact Nat.one_pos⟩

abbrev SampleState := NetState (Goroutine sampleConfig) Message Answer

/-- The datagram has arrived. -/
def arrived : SampleState := NetState.start.push .socket emptyDict

theorem arrived_reached : (network sampleConfig).Reaches Harmless .start arrived :=
  .single (.inr (.arrive rfl Nat.one_pos emptyDict_harmless))

theorem arrived_not_idle : ¬ arrived.Idle := fun h => nomatch h.empty .socket

end Sample

/-- No goroutine panics outside of a call. While there is work and nobody is told to return, some
goroutine can go on, unless there is one in a call that does not return. -/
theorem harmless_traffic_never_deadlocks (cfg : Config) (hid : cfg.nodeID.length = 20) (hstaff : Staffed cfg)
    (s : NetState (Goroutine cfg) Message Answer) (hs : (network cfg).Reaches Harmless .start s) :
    (∀ g, s.proc g ≠ .crash) ∧
    ((∀ g, s.stopped g = false) → ¬ s.Idle → (∃ t, (network cfg).Step s t) ∨ ∃ g, s.Hangs g) := by
  have hsane := sane_of_reaches hid hs
  refine ⟨hsane.ne_crash,fun hrun hbusy => ?_⟩
  by_cases hstuck : ∀ t, ¬ (network cfg).Step s t
  · exact .inr ((hsane.idle_of_stuck hrun hstaff.served hstuck).resolve_left hbusy)
  · push Not at hstuck
    exact .inl hstuck

theorem arrived_goes_on : ∃ t, (network sampleConfig).Step arrived t := by
  rcases (harmless_traffic_never_deadlocks sampleConfig rfl sampleConfig_staffed arrived arrived_reached).2
    (fun _ => rfl) arrived_not_idle with h | ⟨g,-,hlost⟩
  · exact h
  · cases hlost

section Cost
variable {cfg : Config}

def nodeCount (p : Packet AddrPort) : ℕ :=
  match newFindNodeResponse p with
  | .ok (some res) => res.nodes.length
  | _ => 0

/-- The steps that a message costs, with all that it causes. -/
def price (cfg : Config) : (c : Chan) → Message c → ℕ
  | .socket, datagram => 16 + datagram.1.length
  | .tick, _ => 2 + 7*cfg.bootstrapNodes.length
  | .rawPackets, p => 14 + p.buf.length
  | .decodedPackets, p => 12 + 10*nodeCount p
  | .neighbours, _ => 6
  | .uncheckedChan, _ => 6
  | .outPackets, _ => 2
  | .tasks, _ => 2

theorem within_sendAll {pkts : List OutPacket} {next : Body} {k : ℕ} (h : next.Within (price cfg) k) :
    (sendAll pkts next).Within (price cfg) (k + 3*pkts.length) := by
  induction pkts with
  | nil => exact h
  | cons pkt pkts ih => exact ⟨_,ih,by simp only [price,List.length_cons]; omega⟩

theorem within_sendNodes (nodes : List Neighbour) : (sendNodes nodes).Within (price cfg) (1 + 7*nodes.length) := by
  induction nodes with
  | nil => exact le_rfl
  | cons n nodes ih => exact ⟨_,ih,by simp only [price,List.length_cons]; omega⟩

theorem within_findNode (mem : Bytes) (nodes : List Node) :
    (onFindNodeResponse cfg mem nodes).Within (price cfg) (1 + 10*nodes.length) := by
  induction nodes with
  | nil => exact le_rfl
  | cons node nodes ih =>
    refine ⟨1 + 10*nodes.length + 9,fun n => ?_,by simp only [List.length_cons]; omega⟩
    dsimp only
    split
    · exact Nat.le_add_right 1 _ |>.trans (Nat.le_add_right _ _)
    · split
      · refine ⟨1 + 10*nodes.length + 8,fun seen => ?_,le_rfl⟩
        cases seen with
        | true => exact ih.mono (Nat.le_add_right _ _)
        | false => exact ⟨1 + 10*nodes.length + 7,fun _ => ⟨_,ih,le_rfl⟩,le_rfl⟩
      · exact ih.mono (Nat.le_add_right _ _)

theorem within_commit (req : TorrentRequest) : (commit cfg req).Within (price cfg) 5 := by
  refine ⟨4,fun n => ?_,le_rfl⟩
  dsimp only
  split
  · exact (by decide : 1 ≤ 4)
  · exact ⟨1,le_rfl,le_rfl⟩

theorem within_push (req : TorrentRequest) : (push cfg req).Within (price cfg) 9 := by
  refine ⟨8,fun exist => ?_,le_rfl⟩
  cases exist with
  | true => exact ⟨1,le_rfl,le_rfl⟩
  | false => exact (within_commit req).mono (by decide)

theorem within_handlerLoop (p : Packet AddrPort) : (handlerLoop cfg p).Within (price cfg) (12 + 10*nodeCount p) := by
  obtain ⟨task,hbody,-,hstems⟩ := exists_task cfg p p.addr
  rw [handlerLoop,hbody]
  cases task with
  | fail => trivial
  | nodes mem ns =>
    obtain ⟨-,res,hres,rfl⟩ := hstems
    refine (within_findNode mem res.nodes).mono ?_
    rw [nodeCount,hres]
    dsimp only
    omega
  | reply pkts =>
    have hlen : pkts.length ≤ 1 := hstems
    exact (within_sendAll (k := 1) le_rfl).mono (by omega)
  | fetch pkts req =>
    have hlen : pkts.length ≤ 1 := hstems
    exact (within_sendAll (within_push req)).mono (by omega)

theorem within_decodeLoop (p : Packet AddrPort) : (decodeLoop p).Within (price cfg) (14 + p.buf.length) := by
  unfold decodeLoop
  cases hd : p.decode with
  | ok p' =>
    refine ⟨1,le_rfl,?_⟩
    obtain ⟨hbuf,-⟩ := decode_keeps hd
    have hcount : 10*nodeCount p' ≤ p'.buf.length := by
      unfold nodeCount
      split
      · rename_i res hres
        have := (newFindNodeResponse_spec hres).2 (Packet.decode_produced hd)
        unfold rawNodeLength at this
        omega
      · omega
    simp only [price,← hbuf]
    omega
  | error e => exact (show 1 ≤ 14 + p.buf.length by omega)
  | panic q => trivial
  | hang => trivial

theorem within_neighbourLoop (n : Neighbour) : (neighbourLoop cfg n).Within (price cfg) 6 := by
  refine ⟨5,fun _ => ?_,le_rfl⟩
  unfold ofCall
  split
  · refine ⟨4,fun answer => ?_,le_rfl⟩
    dsimp only
    rw [sendPacket_eq]
    refine (within_sendAll (k := 1) le_rfl).mono ?_
    exact Nat.add_le_add_left (Nat.mul_le_mul_left 3 (length_packets _ _)) 1
  · contradiction
  · trivial
  · trivial

/-- Each message pays for the steps of its body and for the messages these send. -/
theorem network_within (c : Chan) (m : Message c) : ((network cfg).body c m).Within (price cfg) (price cfg c m) := by
  cases c with
  | socket => exact ⟨1,le_rfl,by simp only [price,newPacketFromBuffer]; omega⟩
  | tick =>
    refine ⟨1 + 7*cfg.bootstrapNodes.length,fun n => ?_,by simp only [price]; omega⟩
    dsimp only
    split
    · have h := @within_sendNodes cfg (bootstrapNodes cfg)
      rwa [bootstrapNodes,List.length_map] at h
    · exact Nat.le_add_right 1 _
  | rawPackets => exact within_decodeLoop m
  | decodedPackets => exact within_handlerLoop m
  | neighbours => exact within_neighbourLoop m
  | outPackets =>
    change (sendLoop m).Within _ 2
    unfold sendLoop
    split
    · exact Nat.le_succ 1
    · split
      · exact Nat.le_succ 1
      · exact ⟨1,fun _ => le_rfl,le_rfl⟩
  | uncheckedChan =>
    refine ⟨5,fun result => ?_,le_rfl⟩
    cases result with
    | found => exact (by decide : 1 ≤ 5)
    | noDocuments => exact within_commit m
    | failed => exact (by decide : 1 ≤ 5)
  | tasks => exact ⟨1,fun _ => le_rfl,le_rfl⟩

theorem sum_chan {M : Type} [AddCommMonoid M] (f : Chan → M) :
    ∑ c, f c = f .socket + (f .tick + (f .rawPackets + (f .decodedPackets + (f .neighbours + (f .outPackets +
      (f .uncheckedChan + f .tasks)))))) := by
  have huniv : (Finset.univ : Finset Chan) = {.socket,.tick,.rawPackets,.decodedPackets,.neighbours,.outPackets,
      .uncheckedChan,.tasks} := by decide
  simp [huniv]

theorem total_fed (s : NetState (Goroutine cfg) Message Answer) :
    Network.total ((network cfg).fed (price cfg)) s.put =
      ((s.put .socket).map fun datagram => 16 + datagram.1.length).sum +
        (s.put .tick).length*(2 + 7*cfg.bootstrapNodes.length) := by
  have hinner : ∀ c, (network cfg).source c = false → ((s.put c).map ((network cfg).fed (price cfg) c)).sum = 0 := by
    intro c hc
    refine List.sum_eq_zero fun x hx => ?_
    obtain ⟨m,-,rfl⟩ := List.mem_map.mp hx
    rw [Network.fed,hc]
    rfl
  have htick : ((s.put .tick).map ((network cfg).fed (price cfg) .tick)).sum =
      (s.put .tick).length*(2 + 7*cfg.bootstrapNodes.length) := by
    change ((s.put .tick).map fun _ => 2 + 7*cfg.bootstrapNodes.length).sum = _
    rw [List.map_const',List.sum_replicate_nat]
  rw [Network.total,sum_chan,htick,hinner .rawPackets rfl,hinner .decodedPackets rfl,hinner .neighbours rfl,
    hinner .outPackets rfl,hinner .uncheckedChan rfl,hinner .tasks rfl]
  rfl

theorem card_goroutine : Fintype.card (Goroutine cfg) =
    5 + cfg.decoderThreads + cfg.handlerThreads + cfg.torrentWorkers := by
  rw [Fintype.card_sigma,Finset.sum_congr rfl fun c _ => Fintype.card_fin (threads cfg c),sum_chan]
  simp only [threads]
  omega

end Cost

/-- After any traffic that was harmless, every sequence of steps comes to an end within a number that
the datagrams and the ticks so far account for. If nobody is told to return and all calls return, then
all of them are dealt with where it ends. -/
theorem harmless_traffic_comes_to_rest (cfg : Config) (hid : cfg.nodeID.length = 20) (hstaff : Staffed cfg)
    (s : NetState (Goroutine cfg) Message Answer) (hs : (network cfg).Reaches Harmless .start s) :
    (∀ (trace : ℕ → NetState (Goroutine cfg) Message Answer) (k : ℕ), trace 0 = s →
      (∀ i < k, (network cfg).Step (trace i) (trace (i+1))) →
      k ≤ ((s.put .socket).map fun datagram => 16 + datagram.1.length).sum +
        (s.put .tick).length*(2 + 7*cfg.bootstrapNodes.length) +
        (5 + cfg.decoderThreads + cfg.handlerThreads + cfg.torrentWorkers)) ∧
    ((∀ g, s.stopped g = false) → (∀ g, s.lost g = false) → ∀ t, Relation.ReflTransGen (network cfg).Step s t →
      (∀ u, ¬ (network cfg).Step t u) → t.Idle) := by
  constructor
  · rintro trace k rfl hsteps
    have haff := Network.affords_of_reaches network_within hs
    rw [total_fed,card_goroutine] at haff
    exact haff.length_le network_within hsteps
  · intro hrun hcalls t hsteps hstuck
    exact (sane_of_reaches hid hs).idle_of_run (network_layered hid) hrun hcalls hstaff.served hsteps hstuck

theorem arrived_comes_to_rest : ∃ t, Relation.ReflTransGen (network sampleConfig).Step arrived t ∧
    (∀ u, ¬ (network sampleConfig).Step t u) ∧ t.Idle := by
  obtain ⟨t,hsteps,hstuck⟩ := (Network.affords_of_reaches network_within arrived_reached).exists_stuck network_within
  exact ⟨t,hsteps,hstuck,(harmless_traffic_comes_to_rest sampleConfig rfl sampleConfig_staffed arrived arrived_reached).2
    (fun _ => rfl) (fun _ => rfl) t hsteps hstuck⟩

section Stranded

/-- The listener has a packet for the decoder, which is told to return. -/
def deserted : SampleState :=
  let s := (network sampleConfig).received arrived (sole .socket) emptyDict []
  { s with stopped := Function.update s.stopped (sole .rawPackets) true }

/-- The decoder has returned. -/
def stranded : SampleState := deserted.resume (sole .rawPackets) .exit

theorem stranded_reached : (network sampleConfig).Reaches Harmless .start stranded := by
  have hdeserted : (network sampleConfig).Reaches Harmless .start deserted :=
    (arrived_reached.tail (.inl (.recv (p := sole .socket) rfl rfl))).tail (.inr (.stop (sole .rawPackets)))
  exact hdeserted.tail (.inl (.quit rfl rfl))

theorem stranded_proc (g : Goroutine sampleConfig) :
    (g.1 = .rawPackets ∧ stranded.proc g = .exit) ∨
    (g = sole .socket ∧ stranded.proc g = .send .rawPackets (newPacketFromBuffer (ascii "de") localPeer) .done) ∨
    (g.1 ≠ .rawPackets ∧ stranded.proc g = .done ∧ stranded.stopped g = false) := by
  obtain ⟨c,i,hi⟩ := g
  have hi0 : i = 0 := by
    cases c <;> exact Nat.lt_one_iff.mp hi
  subst hi0
  cases c with
  | socket => exact .inr (.inl ⟨rfl,rfl⟩)
  | rawPackets => exact .inl ⟨rfl,rfl⟩
  | _ => exact .inr (.inr ⟨nofun,rfl,rfl⟩)

theorem stranded_queue (c : Chan) : stranded.queue c = [] := by
  cases c <;> rfl

theorem stranded_stuck (t : SampleState) : ¬ (network sampleConfig).Step stranded t := by
  intro h
  cases h with
  | recv _ hq => cases (stranded_queue _).symm.trans hq
  | @send p _ _ _ hp hcap =>
    rcases stranded_proc p with ⟨-,he⟩ | ⟨-,he⟩ | ⟨-,he,-⟩
    · cases he.symm.trans hp
    · cases he.symm.trans hp
      exact absurd hcap (Nat.not_lt_zero _)
    · cases he.symm.trans hp
  | @hand p q _ _ hp hq _ =>
    have hhome : q.1 = .rawPackets := by
      rcases stranded_proc p with ⟨-,he⟩ | ⟨-,he⟩ | ⟨-,he,-⟩
      · cases he.symm.trans hp
      · exact (Prog.send.inj (he.symm.trans hp)).1.symm
      · cases he.symm.trans hp
    rcases stranded_proc q with ⟨-,he⟩ | ⟨-,he⟩ | ⟨hne,-,-⟩
    · cases he.symm.trans hq
    · cases he.symm.trans hq
    · exact hne hhome
  | @look p _ _ hp => rcases stranded_proc p with ⟨-,he⟩ | ⟨-,he⟩ | ⟨-,he,-⟩ <;> cases he.symm.trans hp
  | @reply p _ _ _ hp _ => rcases stranded_proc p with ⟨-,he⟩ | ⟨-,he⟩ | ⟨-,he,-⟩ <;> cases he.symm.trans hp
  | @quit p hp hstop =>
    rcases stranded_proc p with ⟨-,he⟩ | ⟨-,he⟩ | ⟨-,-,he⟩
    · cases he.symm.trans hp
    · cases he.symm.trans hp
    · cases he.symm.trans hstop

end Stranded

/-- Where no goroutine can go on, those that were told to return have done so, or else a goroutine
sends to a channel that nobody will take from any more, or is in a call that does not return. -/
theorem stopped_settles_or_abandons (cfg : Config) (hid : cfg.nodeID.length = 20)
    (s : NetState (Goroutine cfg) Message Answer) (hs : (network cfg).Reaches Harmless .start s)
    (hstuck : ∀ t, ¬ (network cfg).Step s t) :
    (∀ g, s.stopped g = true → s.proc g = .exit) ∨ (∃ c, (network cfg).Abandoned s c) ∨ ∃ g, s.Hangs g := by
  rcases (sane_of_reaches hid hs).settled_or_abandoned hstuck with h | h
  · refine .inl fun g hg => ?_
    rcases h g with ⟨-,hrun,-⟩ | hexit
    · rw [hg] at hrun
      cases hrun
    · exact hexit
  · exact .inr h

/-- The listener is left with a packet that nobody takes. -/
theorem listener_stranded :
    (∀ t, ¬ (network sampleConfig).Step stranded t) ∧ (network sampleConfig).Abandoned stranded .rawPackets ∧
    ((∀ g, stranded.stopped g = true → stranded.proc g = .exit) ∨
      (∃ c, (network sampleConfig).Abandoned stranded c) ∨ ∃ g, stranded.Hangs g) := by
  refine ⟨stranded_stuck,⟨⟨sole .socket,_,_,rfl⟩,?_⟩,
    stopped_settles_or_abandons sampleConfig rfl stranded stranded_reached stranded_stuck⟩
  intro g hg
  rcases stranded_proc g with ⟨-,he⟩ | ⟨rfl,-⟩ | ⟨hne,-,-⟩
  · exact he
  · cases hg
  · exact absurd hg hne

end DhtOcean.Pipeline
