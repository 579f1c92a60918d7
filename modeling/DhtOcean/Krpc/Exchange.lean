import DhtOcean.Bencode.Layout
import DhtOcean.Krpc.Aliasing

/-! # Queries and the answers to them

A handler writes a neighbour ID into the datagram of the query that it answers. The
byte strings of a datagram are apart, so the transaction ID of a query that carries
twenty octets where the neighbour ID goes is answered as it was received.
-/
namespace DhtOcean.Krpc
open Foundation Bencode

/-- The first half of the target and the second half of the crawler's own ID. -/
def neighbourID (target nodeID : Bytes) : Bytes := target.take 10 ++ nodeID.drop 10

structure Query (p : Packet AddrPort) (kind : Bytes) (tid : Slice) (args : Dict Slice) : Prop where
  query : Says p (ascii "y") (ascii "q")
  kind : Says p (ascii "q") kind
  transaction : p.data.lookup (ascii "t") = some (.bytes tid)
  arguments : p.data.lookup (ascii "a") = some (.map args)

/-- Where an announcement has the torrent fetched from. -/
def announcer (p : Packet AddrPort) (addr : AddrPort) : FetchAddr :=
  if (getInt p.data (ascii "a.implied_port")).1 = 0
    then .hostPort addr.ip (getInt p.data (ascii "a.port")).1 else .ofAddr addr

/-- What the datagram says, to whoever decodes it. -/
def Means (w : Bytes) (d : Datum) : Prop := ∃ v, bDecode w = .ok v ∧ v.denote (Slice.read w) = some d

/-- The response to a transaction, with these entries under `r`. -/
def response (tid : Bytes) (r : List (Bytes × Datum)) : Datum :=
  .dict [(ascii "r",.dict r),(ascii "t",.bytes tid),(ascii "y",.bytes (ascii "r"))]

section Memory
variable {mem nodeID : Bytes} {off len : ℕ}

/-- A neighbour ID is written over twenty octets, and seen through nothing apart from them. -/
theorem getNeighbourID_room (hn : nodeID.length = 20) (hlen : 10 ≤ len) (hroom : off + 20 ≤ mem.length) :
    ∃ mem', getNeighbourID mem (.view off len) nodeID = .ok (.view off 20,mem') ∧ mem'.length = mem.length ∧
      (Slice.view off 20).read mem' = neighbourID ((Slice.view off len).read mem) nodeID ∧
      ∀ start l, Span.Apart ⟨start,l⟩ ⟨off,20⟩ → (Slice.view start l).read mem' = (Slice.view start l).read mem := by
  have hrest : (nodeID.drop 10).length = 10 := by rw [List.length_drop,hn]
  obtain ⟨nid,hnid,hview⟩ := @getNeighbourID_view mem off len nodeID hn (by omega)
  rw [if_pos hroom,hview hroom] at hnid
  refine ⟨_,hnid,length_overwrite (by omega),?_,?_⟩
  · have hoff : (mem.take (off + 10)).length = off + 10 := List.length_take_of_le (by omega)
    simp only [Slice.read,neighbourID,overwrite,List.append_assoc]
    rw [List.drop_append_of_le_length (by omega),List.drop_take,Nat.add_sub_cancel_left,List.take_append,
      List.take_take,List.take_take,List.length_take,List.length_drop,Nat.min_eq_left (by omega : 10 ≤ mem.length - off),
      List.take_left' hrest,Nat.min_eq_right (by omega),Nat.min_eq_left hlen]
  · intro start l h
    have hinside : Span.Inside ⟨off + 10,(nodeID.drop 10).length⟩ ⟨off,20⟩ := by
      simp only [Span.Inside]
      omega
    exact Span.read_overwrite (s := ⟨start,l⟩) (by omega) (h.inside hinside)

end Memory

section Packets
variable {p : Packet AddrPort} {addr : AddrPort} {buf : Bytes}

theorem bDecode_of_decode (h : (newPacketFromBuffer buf addr).decode = .ok p) :
    p.buf = buf ∧ bDecode buf = .ok (.map p.data) := by
  unfold Packet.decode at h
  split at h
  · rename_i m hm
    cases h
    exact ⟨rfl,hm⟩
  all_goals cases h

theorem decode_apart (h : (newPacketFromBuffer buf addr).decode = .ok p) :
    p.buf = buf ∧ (Value.map p.data).spans.Pairwise Span.Apart := by
  obtain ⟨hbuf,hm⟩ := bDecode_of_decode h
  exact ⟨hbuf,bDecode_apart hm⟩

theorem Says.getString {key text : Bytes} (h : Says p key text) : p.getString key = .ok text := by
  obtain ⟨s,hs,rfl⟩ := h
  rw [Packet.getString,Packet.getBytes,Packet.get,hs]
  rfl

theorem Query.getT {kind : Bytes} {tid : Slice} {args : Dict Slice} (h : Query p kind tid args) :
    p.getT = .ok (some tid) := by
  rw [Packet.getT,Packet.getBytes,Packet.get,h.transaction]
  rfl

theorem Query.mustGetBytes {kind : Bytes} {tid s : Slice} {args : Dict Slice} (h : Query p kind tid args)
    {path key : Bytes} (hpath : path.splitOn '.'.toUInt8 = [ascii "a",key]) (hs : args.lookup key = some (.bytes s)) :
    mustGetBytes p.data path = some s := by
  rw [mustGetBytes_eq_some,getByPath_two hpath,nested_of_map key h.arguments,hs]

/-- The transaction ID is apart from the arguments, and they are apart from each other. -/
theorem Query.apart {kind : Bytes} {tid : Slice} {args : Dict Slice} (h : Query p kind tid args)
    (hp : (Value.map p.data).spans.Pairwise Span.Apart) :
    (∀ s ∈ tid.spans, ∀ s' ∈ (Value.map args).spans, s.Apart s') ∧ (Value.map args).spans.Pairwise Span.Apart := by
  refine ⟨fun s hs s' hs' => apart_of_lookup hp (by decide) h.transaction h.arguments hs hs',?_⟩
  rw [Value.spans,entrySpans_eq] at hp
  exact (List.pairwise_flatMap.mp hp).1 _ (KeyMap.mem_of_lookup h.arguments)

theorem means_bEncode {v : Value Bytes} {d : Datum} (hv : Bencodable v) (hd : v.denote id = some d) :
    ∃ w, bEncode v = .ok w ∧ Means w d := by
  obtain ⟨w,v',d',hw,hdecode,-,hd',hread⟩ := decodeAny_bEncode hv [] []
  rw [List.nil_append,List.append_nil,List.length_nil,Nat.zero_add] at hdecode
  rw [List.nil_append,List.append_nil] at hread
  cases hd.symm.trans hd'
  refine ⟨w,hw,v',?_,hread⟩
  rw [bDecode,hdecode]
  rfl

theorem Query.onMessage {kind : Bytes} {tid : Slice} {args : Dict Slice} (h : Query p kind tid args) (c : Crawler) :
    onMessage c p addr =
      if kind = ascii "get_peers" then onGetPeersRequest c p addr
      else if kind = ascii "announce_peer" then onAnnouncePeerRequest c p addr
      else .ok c := by
  have hy : p.getY = .ok (ascii "q") := h.query.getString
  have hq : p.getQ = .ok kind := h.kind.getString
  rw [Krpc.onMessage,hy,Outcome.ok_bind,if_neg (by decide),if_pos rfl,onQuery,hq,Outcome.ok_bind]
  rfl

end Packets

section Replies
variable {id token tid : Bytes}

theorem getPeersReply_means (hid : id.length < 2^63) (htoken : token.length < 2^63) (htid : tid.length < 2^63) :
    ∃ w, bEncode (getPeersReply id token tid) = .ok w ∧ Means w (response tid
      [(ascii "id",.bytes id),(ascii "nodes",.bytes []),(ascii "token",.bytes token)]) :=
  means_bEncode (getPeersReply_bencodable hid htoken htid) rfl

/-- The response to an announcement, with what its slices show when it is encoded. -/
def announceReply (id tid : Bytes) : Value Bytes :=
  .map [(ascii "y",.str (ascii "r")),(ascii "r",.map [(ascii "id",.bytes id)]),(ascii "t",.bytes tid)]

theorem announceReply_means (hid : id.length < 2^63) (htid : tid.length < 2^63) :
    ∃ w, bEncode (announceReply id tid) = .ok w ∧ Means w (response tid [(ascii "id",.bytes id)]) := by
  refine means_bEncode ?_ rfl
  refine .map packetKeys_nodup (by simp [ascii]) ?_
  simp only [List.mem_cons,List.not_mem_nil,or_false,forall_eq_or_imp,forall_eq]
  refine ⟨.str (by decide),.map (List.nodup_singleton _) (by simp [ascii]) ?_,.bytes htid⟩
  simp only [List.mem_singleton,forall_eq]
  exact .bytes hid

end Replies

theorem length_read_le (mem : Bytes) (s : Slice) : (s.read mem).length ≤ s.length := by
  cases s with
  | view off len => exact List.length_take_le _ _
  | owned b => exact le_rfl

theorem length_view_le (mem : Bytes) (off len : ℕ) : ((Slice.view off len).read mem).length ≤ mem.length := by
  simp only [Slice.read,List.length_take,List.length_drop]
  omega

section Handlers
variable {p : Packet AddrPort} {addr : AddrPort} {buf : Bytes} {tid s : Slice} {args : Dict Slice}

/-- A neighbour ID that is written over an argument of twenty octets or more leaves the transaction ID
and the other arguments as they were received. -/
theorem Query.neighbour {kind key nodeID : Bytes} (hdecode : (newPacketFromBuffer buf addr).decode = .ok p)
    (hq : Query p kind tid args) (hs : args.lookup key = some (.bytes s)) (hlen : 20 ≤ s.length)
    (hn : nodeID.length = 20) :
    ∃ off len mem, s = .view off len ∧ mem.length = buf.length ∧
      (∀ l, getNeighbourID p.buf (.view off l) nodeID = .ok (.view off 20,mem)) ∧
      (Slice.view off 20).read mem = neighbourID (s.read buf) nodeID ∧ tid.read mem = tid.read buf ∧
      ∀ key', key' ≠ key → ∀ s', args.lookup key' = some (.bytes s') → s'.read mem = s'.read buf := by
  obtain ⟨rfl,hapart⟩ := decode_apart hdecode
  obtain ⟨htid,hargs⟩ := hq.apart hapart
  have hproduced := Packet.decode_produced hdecode
  have hproducedArgs := hproduced.of_lookup hq.arguments
  obtain ⟨off,len,rfl,hle⟩ := (hproducedArgs.of_lookup hs).view
  simp only [Slice.length] at hlen
  have hinside : Span.Inside ⟨off,20⟩ ⟨off,len⟩ := by
    simp only [Span.Inside]
    omega
  have hspan : (⟨off,len⟩ : Span) ∈ (Value.bytes (.view off len)).spans := List.mem_singleton_self _
  obtain ⟨mem,hmem,hlength,hread,hkeep⟩ := @getNeighbourID_room p.buf nodeID off len hn (by omega) (by omega)
  -- A slice expression within the capacity does not depend on the length.
  refine ⟨off,len,mem,rfl,hlength,fun _ => hmem,hread,?_,?_⟩
  · obtain ⟨toff,tlen,rfl,-⟩ := (hproduced.of_lookup hq.transaction).view
    exact hkeep toff tlen ((htid _ (List.mem_singleton_self _) _ (spans_of_lookup hs hspan)).inside hinside)
  · intro key' hne s' hs'
    obtain ⟨start,l,rfl,-⟩ := (hproducedArgs.of_lookup hs').view
    exact hkeep start l ((apart_of_lookup hargs hne hs' hs (List.mem_singleton_self _) hspan).inside hinside)

end Handlers

section Queries
variable {p : Packet AddrPort} {addr : AddrPort} {buf : Bytes}

theorem Query.getPeers {c : Crawler} {tid s : Slice} {args : Dict Slice}
    (hq : Query p (ascii "get_peers") tid args) (hdecode : (newPacketFromBuffer buf addr).decode = .ok p)
    (hn : c.nodeID.length = 20) (hsize : buf.length < 2^63) (hs : args.lookup (ascii "info_hash") = some (.bytes s))
    (hlen : 20 ≤ s.length) :
    ∃ w, Krpc.onMessage c p addr = .ok { c with outPackets := c.outPackets ++ [⟨w,addr⟩] } ∧
      Means w (response (tid.read buf) [(ascii "id",.bytes (neighbourID (s.read buf) c.nodeID)),
        (ascii "nodes",.bytes []),(ascii "token",.bytes (neighbourID (s.read buf) c.nodeID))]) := by
  obtain ⟨off,len,mem,rfl,hmem,hneighbour,hread,htid,-⟩ := hq.neighbour hdecode hs hlen hn
  obtain ⟨toff,tlen,rfl,-⟩ := ((Packet.decode_produced hdecode).of_lookup hq.transaction).view
  have hbound : ∀ o l, ((Slice.view o l).read mem).length < 2^63 :=
    fun o l => (length_view_le mem o l).trans_lt (hmem ▸ hsize)
  obtain ⟨w,hw,hmeans⟩ := getPeersReply_means (hbound off 20) (hbound off 20) (hbound toff tlen)
  rw [hread,htid] at hmeans
  have hhash : getPeersInfoHash p.data = some (.view off 20) := by
    rw [getPeersInfoHash,hq.mustGetBytes splitOn_infoHash hs]
    exact if_neg (Nat.not_lt.mpr hlen)
  refine ⟨w,?_,hmeans⟩
  rw [hq.onMessage,if_pos rfl]
  simp only [Krpc.onGetPeersRequest,hq.getT,hhash,hneighbour,Outcome.ok_bind,Outcome.pure_eq]
  exact congrArg Outcome.ok (sendPacket_ok hw)

theorem Query.announcePeer {c : Crawler} {tid id infoHash : Slice} {args : Dict Slice}
    (hq : Query p (ascii "announce_peer") tid args) (hdecode : (newPacketFromBuffer buf addr).decode = .ok p)
    (hn : c.nodeID.length = 20) (hsize : buf.length < 2^63) (hid : args.lookup (ascii "id") = some (.bytes id))
    (hlen : 20 ≤ id.length) (hhash : args.lookup (ascii "info_hash") = some (.bytes infoHash)) :
    ∃ w, Krpc.onMessage c p addr = .ok { c with
        outPackets := c.outPackets ++ [⟨w,addr⟩]
        requests := c.requests ++ [⟨c.nodeID,infoHash.read buf,announcer p addr⟩] } ∧
      Means w (response (tid.read buf) [(ascii "id",.bytes (neighbourID (id.read buf) c.nodeID))]) := by
  obtain ⟨off,len,mem,rfl,hmem,hneighbour,hread,htid,hothers⟩ := hq.neighbour hdecode hid hlen hn
  obtain ⟨toff,tlen,rfl,-⟩ := ((Packet.decode_produced hdecode).of_lookup hq.transaction).view
  have hbound : ∀ o l, ((Slice.view o l).read mem).length < 2^63 :=
    fun o l => (length_view_le mem o l).trans_lt (hmem ▸ hsize)
  obtain ⟨w,hw,hmeans⟩ := announceReply_means (hbound off 20) (hbound toff tlen)
  rw [hread,htid] at hmeans
  refine ⟨w,?_,hmeans⟩
  rw [hq.onMessage,if_neg (by decide),if_pos rfl]
  simp only [Krpc.onAnnouncePeerRequest,hq.getT,hq.mustGetBytes splitOn_id hid,hq.mustGetBytes splitOn_infoHash hhash,
    Outcome.ok_bind,Outcome.pure_eq]
  rw [show orNil (some (Slice.view off len)) = .view off len from rfl,hneighbour,Outcome.ok_bind]
  have hsent : sendPacket c mem (setT (newEmptyResponsePacket (.view off 20)) (.view toff tlen)) addr =
      { c with outPackets := c.outPackets ++ [⟨w,addr⟩] } := sendPacket_ok hw
  have hkept := hothers (ascii "info_hash") (by decide) infoHash hhash
  rw [show orNil (some (Slice.view toff tlen)) = .view toff tlen from rfl,
    show orNil (some infoHash) = infoHash from rfl,hsent,hkept]
  rfl

end Queries

section Meaning
variable {buf : Bytes} {top : List (Bytes × Datum)}

/-- The entries of a query of this kind. -/
structure Asks (top : List (Bytes × Datum)) (kind tid : Bytes) (args : List (Bytes × Datum)) : Prop where
  query : top.lookup (ascii "y") = some (.bytes (ascii "q"))
  kind : top.lookup (ascii "q") = some (.bytes kind)
  transaction : top.lookup (ascii "t") = some (.bytes tid)
  arguments : top.lookup (ascii "a") = some (.dict args)

theorem Means.packet (h : Means buf (.dict top)) (addr : AddrPort) :
    ∃ p, (newPacketFromBuffer buf addr).decode = .ok p ∧ (Value.map p.data).denote (Slice.read buf) = some (.dict top) := by
  obtain ⟨v,hdecode,hv⟩ := h
  obtain ⟨m,rfl⟩ := Value.denote_dict _ hv
  refine ⟨⟨buf,m,addr⟩,?_,hv⟩
  rw [Packet.decode,show (newPacketFromBuffer buf addr).buf = buf from rfl,hdecode]
  rfl

/-- A byte string of the meaning is a byte string of the map. -/
theorem lookup_bytes {size : ℕ} {m : Dict Slice} {ps : List (Bytes × Datum)} {k b : Bytes}
    (hp : Produced size (.map m)) (hm : (Value.map m).denote (Slice.read buf) = some (.dict ps))
    (h : ps.lookup k = some (.bytes b)) : ∃ s, m.lookup k = some (.bytes s) ∧ s.read buf = b := by
  obtain ⟨v,hv,hd⟩ := hp.lookup_denote hm h
  obtain ⟨s,rfl⟩ := (hp.of_lookup hv).denote_bytes hd
  refine ⟨s,hv,?_⟩
  simpa [Value.denote] using hd

theorem Asks.query_of_means {kind tid : Bytes} {args : List (Bytes × Datum)} (h : Asks top kind tid args)
    (hmeans : Means buf (.dict top)) (addr : AddrPort) :
    ∃ p t m, (newPacketFromBuffer buf addr).decode = .ok p ∧ Query p kind t m ∧ t.read buf = tid ∧
      ∀ k b, args.lookup k = some (.bytes b) → ∃ s, m.lookup k = some (.bytes s) ∧ s.read buf = b := by
  obtain ⟨p,hdecode,hp⟩ := hmeans.packet addr
  obtain ⟨hbuf,-⟩ := decode_apart hdecode
  have hproduced := Packet.decode_produced hdecode
  obtain ⟨y,hy,hyread⟩ := lookup_bytes hproduced hp h.query
  obtain ⟨q,hq,hqread⟩ := lookup_bytes hproduced hp h.kind
  obtain ⟨t,ht,htread⟩ := lookup_bytes hproduced hp h.transaction
  obtain ⟨a,ha,hargs⟩ := hproduced.lookup_denote hp h.arguments
  obtain ⟨m,rfl⟩ := Value.denote_dict _ hargs
  refine ⟨p,t,m,hdecode,⟨⟨y,hy,hbuf ▸ hyread⟩,⟨q,hq,hbuf ▸ hqread⟩,ht,ha⟩,htread,?_⟩
  intro k b hk
  exact lookup_bytes (hproduced.of_lookup ha) hargs hk

end Meaning

/-- Every get_peers query with a whole hash is answered under its own transaction ID. -/
theorem get_peers_answered (c : Crawler) (hn : c.nodeID.length = 20) (buf : Bytes) (hsize : buf.length < 2^63)
    (top args : List (Bytes × Datum)) (tid infoHash : Bytes) (hmeans : Means buf (.dict top))
    (hasks : Asks top (ascii "get_peers") tid args) (hhash : args.lookup (ascii "info_hash") = some (.bytes infoHash))
    (hlen : 20 ≤ infoHash.length) (addr : AddrPort) :
    ∃ p w, (newPacketFromBuffer buf addr).decode = .ok p ∧
      onMessage c p addr = .ok { c with outPackets := c.outPackets ++ [⟨w,addr⟩] } ∧
      Means w (response tid [(ascii "id",.bytes (neighbourID infoHash c.nodeID)),(ascii "nodes",.bytes []),
        (ascii "token",.bytes (neighbourID infoHash c.nodeID))]) := by
  obtain ⟨p,t,m,hdecode,hq,rfl,hargs⟩ := hasks.query_of_means hmeans addr
  obtain ⟨s,hs,rfl⟩ := hargs _ _ hhash
  obtain ⟨w,hw,hreply⟩ := hq.getPeers hdecode hn hsize hs (hlen.trans (length_read_le buf s))
  exact ⟨p,w,hdecode,hw,hreply⟩

def sampleArguments : List (Bytes × Datum) :=
  [(ascii "id",.bytes (ascii "aaaaaaaaaaaaaaaaaaaa")),(ascii "info_hash",.bytes (ascii "bbbbbbbbbbbbbbbbbbbb"))]

def sampleEntries (kind : Bytes) : List (Bytes × Datum) :=
  [(ascii "a",.dict sampleArguments),(ascii "q",.bytes kind),(ascii "t",.bytes (ascii "x")),
    (ascii "y",.bytes (ascii "q"))]

def sampleValue (kind : Bytes) : Value Bytes :=
  .map [(ascii "a",.map [(ascii "id",.bytes (ascii "aaaaaaaaaaaaaaaaaaaa")),
      (ascii "info_hash",.bytes (ascii "bbbbbbbbbbbbbbbbbbbb"))]),
    (ascii "q",.bytes kind),(ascii "t",.bytes (ascii "x")),(ascii "y",.str (ascii "q"))]

theorem sampleValue_means {kind text : Bytes} (hkind : kind.length < 2^63) (htext : bEncode (sampleValue kind) = .ok text) :
    Means text (.dict (sampleEntries kind)) := by
  have hkeys : [ascii "a",ascii "q",ascii "t",ascii "y"].Nodup := by decide
  obtain ⟨w,hw,hmeans⟩ : ∃ w, bEncode (sampleValue kind) = .ok w ∧ Means w (.dict (sampleEntries kind)) := by
    refine means_bEncode (.map hkeys (by simp [ascii]) ?_) rfl
    simp only [List.mem_cons,List.not_mem_nil,or_false,forall_eq_or_imp,forall_eq]
    refine ⟨.map (by decide) (by simp [ascii]) ?_,.bytes hkind,.bytes (by decide),.str (by decide)⟩
    simp only [List.mem_cons,List.not_mem_nil,or_false,forall_eq_or_imp,forall_eq]
    exact ⟨.bytes (by decide),.bytes (by decide)⟩
  cases htext.symm.trans hw
  exact hmeans

theorem sampleEntries_asks (kind : Bytes) : Asks (sampleEntries kind) kind (ascii "x") sampleArguments :=
  ⟨rfl,rfl,rfl,rfl⟩

def getPeersText : Bytes :=
  ascii "d1:ad2:id20:aaaaaaaaaaaaaaaaaaaa9:info_hash20:bbbbbbbbbbbbbbbbbbbbe1:q9:get_peers1:t1:x1:y1:qe"

theorem getPeersText_means : Means getPeersText (.dict (sampleEntries (ascii "get_peers"))) :=
  sampleValue_means (by decide) (by decide +kernel)

theorem getPeersText_answered : ∃ p w, (newPacketFromBuffer getPeersText localPeer).decode = .ok p ∧
    onMessage idleCrawler p localPeer = .ok { idleCrawler with outPackets := [⟨w,localPeer⟩] } ∧
    Means w (response (ascii "x") [(ascii "id",.bytes (ascii "bbbbbbbbbb" ++ List.replicate 10 0)),
      (ascii "nodes",.bytes []),(ascii "token",.bytes (ascii "bbbbbbbbbb" ++ List.replicate 10 0))]) :=
  get_peers_answered idleCrawler rfl getPeersText (by decide +kernel) _ sampleArguments (ascii "x")
    (ascii "bbbbbbbbbbbbbbbbbbbb") getPeersText_means (sampleEntries_asks _) rfl (by decide) localPeer

/-- Every announcement with a whole sender ID is answered under its own transaction ID, and the torrent
is fetched by the hash that was announced. -/
theorem announce_peer_answered (c : Crawler) (hn : c.nodeID.length = 20) (buf : Bytes) (hsize : buf.length < 2^63)
    (top args : List (Bytes × Datum)) (tid id infoHash : Bytes) (hmeans : Means buf (.dict top))
    (hasks : Asks top (ascii "announce_peer") tid args) (hid : args.lookup (ascii "id") = some (.bytes id))
    (hlen : 20 ≤ id.length) (hhash : args.lookup (ascii "info_hash") = some (.bytes infoHash)) (addr : AddrPort) :
    ∃ p w, (newPacketFromBuffer buf addr).decode = .ok p ∧
      onMessage c p addr = .ok { c with
        outPackets := c.outPackets ++ [⟨w,addr⟩]
        requests := c.requests ++ [⟨c.nodeID,infoHash,announcer p addr⟩] } ∧
      Means w (response tid [(ascii "id",.bytes (neighbourID id c.nodeID))]) := by
  obtain ⟨p,t,m,hdecode,hq,rfl,hargs⟩ := hasks.query_of_means hmeans addr
  obtain ⟨s,hs,rfl⟩ := hargs _ _ hid
  obtain ⟨h,hh,rfl⟩ := hargs _ _ hhash
  obtain ⟨w,hw,hreply⟩ := hq.announcePeer hdecode hn hsize hs (hlen.trans (length_read_le buf s)) hh
  exact ⟨p,w,hdecode,hw,hreply⟩

def announceText : Bytes :=
  ascii "d1:ad2:id20:aaaaaaaaaaaaaaaaaaaa9:info_hash20:bbbbbbbbbbbbbbbbbbbbe1:q13:announce_peer1:t1:x1:y1:qe"

theorem announceText_means : Means announceText (.dict (sampleEntries (ascii "announce_peer"))) :=
  sampleValue_means (by decide) (by decide +kernel)

theorem announceText_answered : ∃ p w, (newPacketFromBuffer announceText localPeer).decode = .ok p ∧
    onMessage idleCrawler p localPeer = .ok { idleCrawler with
      outPackets := [⟨w,localPeer⟩]
      requests := [⟨idleCrawler.nodeID,ascii "bbbbbbbbbbbbbbbbbbbb",announcer p localPeer⟩] } ∧
    Means w (response (ascii "x") [(ascii "id",.bytes (ascii "aaaaaaaaaa" ++ List.replicate 10 0))]) :=
  announce_peer_answered idleCrawler rfl announceText (by decide +kernel) _ sampleArguments (ascii "x")
    (ascii "aaaaaaaaaaaaaaaaaaaa") (ascii "bbbbbbbbbbbbbbbbbbbb") announceText_means (sampleEntries_asks _) rfl (by decide) rfl
    localPeer

end DhtOcean.Krpc
