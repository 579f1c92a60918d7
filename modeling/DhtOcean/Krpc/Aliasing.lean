import DhtOcean.Bencode.RoundTrip
import DhtOcean.Krpc.HandlerSafety

/-! # What a handler overwrites before it reads it

A neighbour ID is appended to the first ten octets of a slice of the datagram, so
it is written behind them in the datagram itself. The token of a get_peers response
and the hash of an announcement are read afterwards.
-/
namespace DhtOcean.Krpc
open Foundation Bencode

/-- What is sent is a packet with this text under `r.token`. -/
def CarriesToken (out : OutPacket) (token : Bytes) : Prop :=
  ∃ m r s, bDecode out.data = .ok (.map m) ∧ m.lookup (ascii "r") = some (.map r) ∧
    r.lookup (ascii "token") = some (.bytes s) ∧ s.read out.data = token

/-- The neighbour ID of `target` is not written over the octets of `hash`, or only over octets that
are the same. It goes to a new array when the datagram has no room for it behind the target. -/
def LeavesAlone (mem nodeID : Bytes) : Slice → Slice → Prop
  | .view off _, .view start len => mem.length < off + 20 ∨
      ∀ k < 10, start ≤ off + 10 + k → off + 10 + k < start + len → mem[off + 10 + k]? = nodeID[10 + k]?
  | _, _ => True

section Memory
variable {mem b : Bytes} {off start len : ℕ}

/-- A view shows the same as before exactly when the octets written inside it are. -/
theorem read_overwrite_iff (hb : off + b.length ≤ mem.length) :
    (Slice.view start len).read (overwrite mem off b) = (Slice.view start len).read mem ↔
      ∀ k < b.length, start ≤ off + k → off + k < start + len → mem[off + k]? = b[k]? := by
  simp only [Slice.read,List.ext_getElem?_iff,List.getElem?_take,List.getElem?_drop,getElem?_overwrite hb]
  constructor
  · intro h k hk hlo hhi
    have hj := h (off + k - start)
    rw [if_pos (by omega),if_pos (by omega),if_pos (by omega)] at hj
    rw [show start + (off + k - start) = off + k by omega,Nat.add_sub_cancel_left] at hj
    exact hj.symm
  · intro h j
    split
    · split
      · rename_i hj hin
        have hk := h (start + j - off) (by omega) (by omega) (by omega)
        rw [show off + (start + j - off) = start + j by omega] at hk
        exact hk.symm
      · rfl
    · rfl

/-- The appended half of a neighbour ID, written into the slice it is made from. -/
theorem read_overwrite_self (hb : b.length = 10) (hoff : off + 20 ≤ mem.length) :
    (Slice.view off 20).read (overwrite mem (off + 10) b) = (Slice.view off 20).read mem ↔
      ((Slice.view off 20).read mem).drop 10 = b := by
  rw [read_overwrite_iff (by omega),List.ext_getElem?_iff]
  simp only [Slice.read,List.getElem?_drop,List.getElem?_take]
  constructor
  · intro h k
    by_cases hk : k < 10
    · rw [if_pos (by omega),← h k (by omega) (by omega) (by omega),Nat.add_assoc]
    · rw [if_neg (by omega),List.getElem?_eq_none (by omega)]
  · intro h k hk _ _
    rw [← h k,if_pos (by omega),Nat.add_assoc]

/-- The neighbour ID is written into the datagram if it fits there. -/
theorem getNeighbourID_view {nodeID : Bytes} (hn : nodeID.length = 20) (hcap : 10 ≤ mem.length - off) :
    ∃ s, getNeighbourID mem (.view off len) nodeID =
      .ok (s,if off + 20 ≤ mem.length then overwrite mem (off + 10) (nodeID.drop 10) else mem) ∧
      (off + 20 ≤ mem.length → s = .view off 20) := by
  have hlen : (nodeID.drop 10).length = 10 := by rw [List.length_drop,hn]
  rw [getNeighbourID,cut_view (Nat.zero_le 10) (by omega),Outcome.ok_bind,if_neg (by omega)]
  simp only [appendTo,Slice.cap,Nat.add_zero,Nat.sub_zero,hlen]
  by_cases hroom : off + 20 ≤ mem.length
  · rw [if_pos (by omega),if_pos hroom]
    exact ⟨_,rfl,fun _ => rfl⟩
  · rw [if_neg (by omega),if_neg hroom]
    exact ⟨_,rfl,fun h => absurd h hroom⟩

end Memory

/-- The response to a get_peers request, with what its slices show when it is encoded. -/
def getPeersReply (id token tid : Bytes) : Value Bytes :=
  .map [(ascii "y",.str (ascii "r")),
    (ascii "r",.map [(ascii "id",.bytes id),(ascii "nodes",.str []),(ascii "token",.bytes token)]),
    (ascii "t",.bytes tid)]

theorem packetKeys_nodup : [ascii "y",ascii "r",ascii "t"].Nodup := by decide

theorem replyKeys_nodup : [ascii "id",ascii "nodes",ascii "token"].Nodup := by decide

section Reply
variable {id token tid : Bytes}

theorem getPeersReply_bencodable (hid : id.length < 2^63) (htoken : token.length < 2^63) (htid : tid.length < 2^63) :
    Bencodable (getPeersReply id token tid) := by
  refine .map packetKeys_nodup (by simp [ascii]) ?_
  simp only [List.mem_cons,List.not_mem_nil,or_false,forall_eq_or_imp,forall_eq]
  refine ⟨.str (by decide),.map replyKeys_nodup (by simp [ascii]) ?_,.bytes htid⟩
  simp only [List.mem_cons,List.not_mem_nil,or_false,forall_eq_or_imp,forall_eq]
  exact ⟨.bytes hid,.str (by decide),.bytes htoken⟩

theorem lookup_of_denote {size : ℕ} {contents : Slice → Bytes} {m : Dict Slice} {ps : List (Bytes × Datum)}
    {k : Bytes} {d : Datum} (hp : Produced size (.map m))
    (hm : (Value.map m).denote contents = some (.dict (KeyMap.ofPairs ps))) (hps : (ps.map Prod.fst).Nodup)
    (h : (k,d) ∈ ps) : ∃ v, m.lookup k = some v ∧ v.denote contents = some d := by
  apply hp.lookup_denote hm
  exact KeyMap.lookup_of_mem (KeyMap.sorted_ofPairs ps).nodup ((KeyMap.mem_ofPairs hps _).mpr h)

theorem getPeersReply_token (hv : Bencodable (getPeersReply id token tid)) (addr : AddrPort) :
    ∃ w, bEncode (getPeersReply id token tid) = .ok w ∧ ∀ text, CarriesToken ⟨w,addr⟩ text ↔ text = token := by
  obtain ⟨w,v,d,hw,hdecode,hproduced,hd,hd'⟩ := decodeAny_bEncode hv [] []
  rw [List.nil_append,List.append_nil,List.length_nil,Nat.zero_add] at hdecode
  rw [List.nil_append,List.append_nil] at hproduced hd'
  simp only [getPeersReply,Value.denote,denoteEntries,id_eq,Option.bind_some,Option.map_some,Option.some.injEq] at hd
  subst hd
  obtain ⟨m,rfl⟩ := Value.denote_dict _ hd'
  obtain ⟨vr,hr,hvr⟩ := lookup_of_denote hproduced hd' packetKeys_nodup (List.mem_cons_of_mem _ List.mem_cons_self)
  obtain ⟨r,rfl⟩ := Value.denote_dict _ hvr
  have hproduced := hproduced.of_lookup hr
  obtain ⟨vt,ht,hvt⟩ := lookup_of_denote hproduced hvr replyKeys_nodup
    (List.mem_cons_of_mem _ (List.mem_cons_of_mem _ List.mem_cons_self))
  have hvt : ∃ s, vt = .bytes s ∧ s.read w = token := by
    have hproduced := hproduced.of_lookup ht
    cases vt with
    | bytes s =>
      simp only [Value.denote,Option.some.injEq,Datum.bytes.injEq] at hvt
      exact ⟨s,rfl,hvt⟩
    | str s => cases hproduced
    | _ => simp [Value.denote] at hvt
  obtain ⟨s,rfl,hs⟩ := hvt
  have hbuf : bDecode w = .ok (.map m) := by rw [bDecode,hdecode]; rfl
  refine ⟨w,hw,fun text => ⟨?_,?_⟩⟩
  · rintro ⟨m',r',s',hm',hr',hs',rfl⟩
    cases hbuf.symm.trans hm'
    cases hr.symm.trans hr'
    cases ht.symm.trans hs'
    exact hs
  · rintro rfl
    exact ⟨m,r,s,hbuf,hr,ht,hs⟩

end Reply

section Handlers
variable {c : Crawler} {p : Packet AddrPort} {addr : AddrPort}

theorem sendPacket_ok {mem w : Bytes} {data : Dict Slice}
    (h : bEncode (.map (loadEntries (Slice.read mem) data)) = .ok w) :
    sendPacket c mem data addr = { c with outPackets := c.outPackets ++ [⟨w,addr⟩] } := by
  rw [sendPacket,h]

theorem sendPacket_requests (mem : Bytes) (data : Dict Slice) : (sendPacket c mem data addr).requests = c.requests := by
  unfold sendPacket
  split <;> rfl

/-- The token of the response is the hash with the neighbour ID written over it. -/
theorem onGetPeersRequest_token (hp : Produced p.buf.length (.map p.data)) (hsize : p.buf.length < 2^63)
    (hn : c.nodeID.length = 20) {s tid : Slice} (hs : mustGetBytes p.data (ascii "a.info_hash") = some s)
    (hlen : 20 ≤ s.length) (ht : p.data.lookup (ascii "t") = some (.bytes tid)) :
    ∃ out, onGetPeersRequest c p addr = .ok { c with outPackets := c.outPackets ++ [out] } ∧
      (CarriesToken out ((s.read p.buf).take 20) ↔ ((s.read p.buf).take 20).drop 10 = c.nodeID.drop 10) := by
  obtain ⟨off,len,rfl,hle⟩ := mustGetBytes_view splitOn_infoHash hp hs
  obtain ⟨toff,tlen,rfl,htle⟩ := (hp.of_lookup ht).view
  simp only [Slice.length] at hlen
  have hhash : getPeersInfoHash p.data = some (.view off 20) := by
    rw [getPeersInfoHash,hs]
    exact if_neg (Nat.not_lt.mpr hlen)
  have hget : p.getT = .ok (some (.view toff tlen)) := by
    rw [Packet.getT,Packet.getBytes,Packet.get,ht]
    rfl
  have hroom : off + 20 ≤ p.buf.length := by omega
  obtain ⟨nid,hnid,hview⟩ := @getNeighbourID_view p.buf off 20 c.nodeID hn (by omega)
  rw [if_pos hroom,hview hroom] at hnid
  have hmem : (overwrite p.buf (off + 10) (c.nodeID.drop 10)).length = p.buf.length :=
    length_overwrite (by rw [List.length_drop,hn]; omega)
  have hread : ∀ o l, ((Slice.view o l).read (overwrite p.buf (off + 10) (c.nodeID.drop 10))).length < 2^63 := by
    intro o l
    simp only [Slice.read,List.length_take,List.length_drop,hmem]
    omega
  obtain ⟨w,hw,hcarries⟩ := getPeersReply_token (getPeersReply_bencodable (hread off 20) (hread off 20) (hread toff tlen)) addr
  refine ⟨⟨w,addr⟩,?_,?_⟩
  · simp only [onGetPeersRequest,hget,hhash,hnid,Outcome.ok_bind,Outcome.pure_eq]
    exact congrArg Outcome.ok (sendPacket_ok hw)
  · have htake : ((Slice.view off len).read p.buf).take 20 = (Slice.view off 20).read p.buf := by
      simp only [Slice.read,List.take_take,Nat.min_eq_left hlen]
    rw [hcarries,htake,eq_comm]
    exact read_overwrite_self (by rw [List.length_drop,hn]) hroom

/-- The hash of an announcement is pushed as it was received exactly when the neighbour ID of the
sender leaves it alone. -/
theorem onAnnouncePeerRequest_infoHash (hp : Produced p.buf.length (.map p.data)) (hn : c.nodeID.length = 20)
    {id : Slice} (hid : mustGetBytes p.data (ascii "a.id") = some id) (hcap : 10 ≤ id.cap p.buf)
    (ht : BytesOrAbsent p.data (ascii "t")) :
    ∃ c' req, onAnnouncePeerRequest c p addr = .ok c' ∧ c'.requests = c.requests ++ [req] ∧
      (req.infoHash = (orNil (mustGetBytes p.data (ascii "a.info_hash"))).read p.buf ↔
        LeavesAlone p.buf c.nodeID id (orNil (mustGetBytes p.data (ascii "a.info_hash")))) := by
  obtain ⟨off,len,rfl,-⟩ := mustGetBytes_view splitOn_id hp hid
  obtain ⟨nid,hnid,-⟩ := @getNeighbourID_view p.buf off len c.nodeID hn hcap
  obtain ⟨tid,htid⟩ : ∃ tid, p.getT = .ok tid := by
    rcases getBytes_cases p (ascii "t") with ⟨tid,h,-,-⟩ | ⟨-,hb⟩
    · exact ⟨tid,h⟩
    · exact absurd ht hb
  simp only [onAnnouncePeerRequest,htid,hid,show orNil (some (Slice.view off len)) = .view off len from rfl,hnid,
    Outcome.ok_bind,Outcome.pure_eq]
  refine ⟨_,_,rfl,congrArg (· ++ [_]) (sendPacket_requests _ _),?_⟩
  by_cases hroom : off + 20 ≤ p.buf.length
  · rw [if_pos hroom]
    cases hh : mustGetBytes p.data (ascii "a.info_hash") with
    | none => exact iff_of_true rfl trivial
    | some s =>
      obtain ⟨start,l,rfl,hle⟩ := mustGetBytes_view splitOn_infoHash hp hh
      have hlen : (c.nodeID.drop 10).length = 10 := by rw [List.length_drop,hn]
      refine (read_overwrite_iff (by omega)).trans ?_
      rw [hlen]
      simp only [orNil,Option.getD_some,LeavesAlone,Nat.not_lt.mpr hroom,false_or,List.getElem?_drop]
  · rw [if_neg hroom]
    refine iff_of_true rfl ?_
    cases hh : mustGetBytes p.data (ascii "a.info_hash") with
    | none => exact trivial
    | some s =>
      obtain ⟨start,l,rfl,hle⟩ := mustGetBytes_view splitOn_infoHash hp hh
      exact .inl (Nat.lt_of_not_le hroom)

end Handlers

/-- When what is read from a query after its neighbour ID was built is what was received. -/
theorem queries_uncorrupted_iff (c : Crawler) (p : Packet AddrPort) (addr : AddrPort)
    (hp : Produced p.buf.length (.map p.data)) (hsize : p.buf.length < 2^63) (hn : c.nodeID.length = 20) :
    (∀ s tid, mustGetBytes p.data (ascii "a.info_hash") = some s → 20 ≤ s.length →
      p.data.lookup (ascii "t") = some (.bytes tid) →
      ∃ out, onGetPeersRequest c p addr = .ok { c with outPackets := c.outPackets ++ [out] } ∧
        (CarriesToken out ((s.read p.buf).take 20) ↔ ((s.read p.buf).take 20).drop 10 = c.nodeID.drop 10)) ∧
    (∀ id, mustGetBytes p.data (ascii "a.id") = some id → 10 ≤ id.cap p.buf → BytesOrAbsent p.data (ascii "t") →
      ∃ c' req, onAnnouncePeerRequest c p addr = .ok c' ∧ c'.requests = c.requests ++ [req] ∧
        (req.infoHash = (orNil (mustGetBytes p.data (ascii "a.info_hash"))).read p.buf ↔
          LeavesAlone p.buf c.nodeID id (orNil (mustGetBytes p.data (ascii "a.info_hash"))))) :=
  ⟨fun _ _ hs hlen ht => onGetPeersRequest_token hp hsize hn hs hlen ht,
    fun _ hid hcap ht => onAnnouncePeerRequest_infoHash hp hn hid hcap ht⟩

section Sample

/-- A query with a sender ID and a hash of twenty octets, as decoding leaves it. -/
def sampleQuery : Packet AddrPort where
  buf := ascii "d1:ad2:id20:aaaaaaaaaaaaaaaaaaaa9:info_hash20:bbbbbbbbbbbbbbbbbbbbe1:t1:xe"
  data := [(ascii "a",.map [(ascii "id",.bytes (.view 12 20)),(ascii "info_hash",.bytes (.view 46 20))]),
    (ascii "t",.bytes (.view 72 1))]
  addr := localPeer

theorem length_sampleQuery : sampleQuery.buf.length = 74 := by decide +kernel

theorem sampleQuery_produced : Produced sampleQuery.buf.length (.map sampleQuery.data) := by
  rw [length_sampleQuery]
  refine .map (by unfold KeyMap.Sorted sampleQuery; decide) ?_
  simp only [sampleQuery,List.mem_cons,List.not_mem_nil,or_false,forall_eq_or_imp,forall_eq]
  refine ⟨.map (by unfold KeyMap.Sorted; decide) ?_,.bytes (by decide)⟩
  simp only [List.mem_cons,List.not_mem_nil,or_false,forall_eq_or_imp,forall_eq]
  exact ⟨.bytes (by decide),.bytes (by decide)⟩

/-- A node ID that ends like the hash leaves the token as it is. -/
theorem sampleQuery_uncorrupted :
    (∃ out, onGetPeersRequest { idleCrawler with nodeID := ascii "bbbbbbbbbbbbbbbbbbbb" } sampleQuery localPeer =
        .ok { idleCrawler with nodeID := ascii "bbbbbbbbbbbbbbbbbbbb", outPackets := [out] } ∧
      CarriesToken out (ascii "bbbbbbbbbbbbbbbbbbbb")) ∧
    ∃ c' req, onAnnouncePeerRequest { idleCrawler with nodeID := ascii "bbbbbbbbbbbbbbbbbbbb" } sampleQuery localPeer =
        .ok c' ∧ c'.requests = [req] ∧ req.infoHash = ascii "bbbbbbbbbbbbbbbbbbbb" := by
  have hhash : mustGetBytes sampleQuery.data (ascii "a.info_hash") = some (.view 46 20) := by decide +kernel
  have hread : (Slice.view 46 20).read sampleQuery.buf = ascii "bbbbbbbbbbbbbbbbbbbb" := by decide +kernel
  obtain ⟨hpeers,hannounce⟩ := queries_uncorrupted_iff { idleCrawler with nodeID := ascii "bbbbbbbbbbbbbbbbbbbb" }
    sampleQuery localPeer sampleQuery_produced (by rw [length_sampleQuery]; decide) rfl
  obtain ⟨out,hout,htoken⟩ := hpeers (.view 46 20) (.view 72 1) hhash (by decide) rfl
  obtain ⟨c',req,hc',hreq,hkept⟩ := hannounce (.view 12 20) (by decide +kernel) (by rw [Slice.cap,length_sampleQuery]; decide) (by
    intro v hv
    cases hv
    exact ⟨_,rfl⟩)
  refine ⟨⟨out,hout,?_⟩,c',req,hc',hreq,?_⟩
  · rw [hread] at htoken
    exact htoken.mpr rfl
  · rw [hhash,show orNil (some (Slice.view 46 20)) = .view 46 20 from rfl,hread] at hkept
    exact hkept.mpr (.inr (by decide +kernel))

def answersWith (text : String) (answer : Bytes) : Bool :=
  (newPacketFromBuffer (ascii text) localPeer).decode.okAnd
    (fun p => (onGetPeersRequest idleCrawler p localPeer).okAnd (fun c => c.outPackets == [⟨answer,localPeer⟩]))

def fetchesHash (text : String) (hash : Bytes) : Bool :=
  (newPacketFromBuffer (ascii text) localPeer).decode.okAnd
    (fun p => (onAnnouncePeerRequest idleCrawler p localPeer).okAnd
      (fun c => c.requests.map TorrentRequest.infoHash == [hash]))

def sampleAnswer : Bytes :=
  ascii "d1:rd2:id20:bbbbbbbbbb" ++ List.replicate 10 0 ++ ascii "5:nodes0:5:token20:bbbbbbbbbb" ++
    List.replicate 10 0 ++ ascii "e1:t1:x1:y1:re"

/-- The second half of the token is that of the node ID; and an announcement with an empty sender ID
has the first octets of its hash overwritten. -/
theorem answered_hash_overwritten :
    answersWith "d1:ad2:id20:aaaaaaaaaaaaaaaaaaaa9:info_hash20:bbbbbbbbbbbbbbbbbbbbe1:q9:get_peers1:t1:x1:y1:qe"
      sampleAnswer = true ∧
    ¬ CarriesToken ⟨sampleAnswer,localPeer⟩ (ascii "bbbbbbbbbbbbbbbbbbbb") ∧
    fetchesHash "d1:ad2:id0:9:info_hash20:bbbbbbbbbbbbbbbbbbbbe1:q13:announce_peer1:t1:x1:y1:qe"
      (List.replicate 6 0 ++ ascii "bbbbbbbbbbbbbb") = true := by
  refine ⟨by decide +kernel,?_,by decide +kernel⟩
  obtain ⟨w,hw,hcarries⟩ := @getPeersReply_token (ascii "bbbbbbbbbb" ++ List.replicate 10 0)
    (ascii "bbbbbbbbbb" ++ List.replicate 10 0) (ascii "x")
    (getPeersReply_bencodable (by decide) (by decide) (by decide)) localPeer
  have hanswer : bEncode (getPeersReply (ascii "bbbbbbbbbb" ++ List.replicate 10 0)
      (ascii "bbbbbbbbbb" ++ List.replicate 10 0) (ascii "x")) = .ok sampleAnswer := by decide +kernel
  cases hw.symm.trans hanswer
  rw [hcarries]
  decide

end Sample

end DhtOcean.Krpc
