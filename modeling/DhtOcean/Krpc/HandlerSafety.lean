import DhtOcean.Krpc.Handler

/-! # Which packets a handler survives

A handler panics on a field of the wrong type, on a response whose `r` is not a
map, and on an announcement whose sender ID is missing or too close to the end
of the datagram. `Handleable` says when none of this is the case, and it depends
on the packet alone.
-/
namespace DhtOcean.Krpc
open Foundation Bencode Cache

def BytesOrAbsent (data : Dict Slice) (key : Bytes) : Prop :=
  ∀ v, data.lookup key = some v → ∃ s, v = .bytes s

def IsBytes (data : Dict Slice) (key : Bytes) : Prop := ∃ s, data.lookup key = some (.bytes s)

section Fields
variable {Addr : Type}

/-- The field is a byte string that shows `text`. -/
def Says (p : Packet Addr) (key text : Bytes) : Prop :=
  ∃ s, p.data.lookup key = some (.bytes s) ∧ s.read p.buf = text

/-- The sender's ID, or the whole of `a` if that is a byte string. -/
def SenderID (data : Dict Slice) (s : Slice) : Prop :=
  (∃ m, data.lookup (ascii "a") = some (.map m) ∧ m.lookup (ascii "id") = some (.bytes s)) ∨
  data.lookup (ascii "a") = some (.bytes s)

/-- The fields that parsing a response asserts. -/
def ResponseFields (p : Packet Addr) (m : Dict Slice) : Prop :=
  BytesOrAbsent p.data (ascii "t") ∧ IsBytes m (ascii "id") ∧ IsBytes m (ascii "nodes")

/-- What a response holds is a map, and one with nodes has all the fields. -/
def ResponseReady (p : Packet Addr) : Prop :=
  ∀ v, p.data.lookup (ascii "r") = some v →
    ∃ m, v = .map m ∧ (m.lookup (ascii "nodes") = none ∨ ResponseFields p m)

/-- Ten octets of the datagram follow the start of the sender's ID, whatever its length. -/
def AnnounceReady (p : Packet Addr) : Prop :=
  BytesOrAbsent p.data (ascii "t") ∧ ∃ s, SenderID p.data s ∧ 10 ≤ s.cap p.buf

structure QueryReady (p : Packet Addr) : Prop where
  kind : BytesOrAbsent p.data (ascii "q")
  getPeers : Says p (ascii "q") (ascii "get_peers") → BytesOrAbsent p.data (ascii "t")
  announce : Says p (ascii "q") (ascii "announce_peer") → AnnounceReady p

structure Handleable (p : Packet Addr) : Prop where
  kind : BytesOrAbsent p.data (ascii "y")
  response : Says p (ascii "y") (ascii "r") → ResponseReady p
  query : Says p (ascii "y") (ascii "q") → QueryReady p

theorem getBytes_cases (p : Packet Addr) (key : Bytes) :
    (∃ s, p.getBytes key = .ok s ∧ BytesOrAbsent p.data key ∧ p.data.lookup key = s.map .bytes) ∨
    (p.getBytes key = .panic .typeAssertion ∧ ¬ BytesOrAbsent p.data key) := by
  unfold Packet.getBytes Packet.get BytesOrAbsent
  cases h : p.data.lookup key with
  | none => exact .inl ⟨none,rfl,by simp,rfl⟩
  | some v =>
    cases v with
    | bytes s => exact .inl ⟨some s,rfl,by simp,rfl⟩
    | _ => exact .inr ⟨rfl,by simp⟩

/-- The text of a field is what it shows; an absent field has the empty text. -/
theorem getString_cases (p : Packet Addr) (key : Bytes) :
    (∃ text, p.getString key = .ok text ∧ BytesOrAbsent p.data key ∧
      ∀ t, t ≠ [] → (Says p key t ↔ text = t)) ∨
    (p.getString key = .panic .typeAssertion ∧ ¬ BytesOrAbsent p.data key) := by
  unfold Packet.getString Says
  rcases getBytes_cases p key with ⟨s,h,hb,hl⟩ | ⟨h,hb⟩
  · refine .inl ⟨(orNil s).read p.buf,by rw [h]; rfl,hb,?_⟩
    intro t ht
    cases s with
    | none => simp [hl,orNil,Slice.read,ht.symm]
    | some s => simp [hl,orNil]
  · exact .inr ⟨by rw [h]; rfl,hb⟩

end Fields

theorem cut_view {mem : Bytes} {off len lo hi : ℕ} (hlo : lo ≤ hi) (hhi : off + hi ≤ mem.length) :
    cut mem (.view off len) lo hi = .ok (.view (off + lo) (hi - lo)) := by
  unfold cut
  rw [if_pos ⟨hlo,by simp only [Slice.cap]; omega⟩]

theorem cut_panics_iff {mem : Bytes} {s : Slice} {hi : ℕ} : (cut mem s 0 hi).Panics ↔ s.cap mem < hi := by
  unfold cut
  split
  · cases s <;> simp <;> omega
  · simp
    omega

theorem getNeighbourID_panics_iff {mem nodeID : Bytes} {target : Slice} (hn : nodeID.length = 20) :
    (getNeighbourID mem target nodeID).Panics ↔ target.cap mem < 10 := by
  simp [getNeighbourID,Outcome.bind_panics,cut_panics_iff,hn]

theorem read_view_length {mem : Bytes} {off len : ℕ} (h : off + len ≤ mem.length) :
    ((Slice.view off len).read mem).length = len := by
  simp only [Slice.read,List.length_take,List.length_drop]
  omega

theorem newNodeFromRaw_ok {mem : Bytes} {off : ℕ} (h : off + 26 ≤ mem.length) :
    ∃ node, newNodeFromRaw mem (.view off 26) = .ok node := by
  obtain ⟨a,b,c,d,hip⟩ := List.length_eq_four.mp (@read_view_length mem (off + 20) 4 (by omega))
  obtain ⟨hi,lo,hport⟩ := List.length_eq_two.mp (@read_view_length mem (off + 24) 2 (by omega))
  have h₁ := @cut_view mem off 26 0 20 (by omega) (by omega)
  have h₂ := @cut_view mem off 26 20 24 (by omega) (by omega)
  have h₃ := @cut_view mem off 26 24 26 (by omega) (by omega)
  have hgip : getIP mem (.view (off + 20) 4) = .ok (.v4 #v[a,b,c,d]) := by rw [getIP,hip]
  have hgport : getPort mem (.view (off + 24) 2) = .ok (.ofNat (beValue [hi,lo])) := by rw [getPort,hport]
  refine ⟨⟨.view off 20,.v4 #v[a,b,c,d],.ofNat (beValue [hi,lo])⟩,?_⟩
  simp only [newNodeFromRaw,h₁,h₂,h₃,Outcome.ok_bind,Nat.reduceSub,hgip,hgport,Nat.add_zero,Outcome.pure_eq]

/-- Each record of the loop lies inside the byte string. -/
theorem rawNodesFrom_ok {mem : Bytes} {off len : ℕ} (h : off + len ≤ mem.length) (n i : ℕ) :
    ∃ nodes, rawNodesFrom mem (.view off len) n i = .ok nodes := by
  induction n generalizing i with
  | zero => exact ⟨[],rfl⟩
  | succ n ih =>
    rw [rawNodesFrom]
    by_cases hi : (i+1)*rawNodeLength < (Slice.view off len).length
    · simp only [Slice.length,rawNodeLength] at hi
      obtain ⟨nodes,hnodes⟩ := ih (i+1)
      obtain ⟨node,hnode⟩ := @newNodeFromRaw_ok mem (off + i*26) (by omega)
      have hcut := @cut_view mem off len (i*26) ((i+1)*26) (by omega) (by omega)
      rw [show (i+1)*26 - i*26 = 26 by omega] at hcut
      refine ⟨node :: nodes,?_⟩
      rw [if_pos (by simpa only [Slice.length,rawNodeLength] using hi)]
      simp only [rawNodeLength,hcut,hnode,hnodes,Outcome.ok_bind,Outcome.pure_eq]
    · exact ⟨[],by rw [if_neg hi]⟩

theorem onFindNodeResponse_not_panics (mem : Bytes) (c : Crawler) (nodes : List Node) :
    ¬ (onFindNodeResponse mem c nodes).Panics := by
  induction nodes generalizing c with
  | nil => simp [onFindNodeResponse]
  | cons node nodes ih =>
    rw [onFindNodeResponse]
    split
    · simp
    · split
      · split
        · exact ih c
        · split
          · simp [Outcome.Panics]
          · exact ih _
      · exact ih c

section Branches
variable {p : Packet AddrPort} {c : Crawler}

theorem assertEntry_cases (m : Dict Slice) (key : Bytes) :
    (∃ s, assertEntry m key = .ok s ∧ m.lookup key = some (.bytes s)) ∨
    (assertEntry m key = .panic .typeAssertion ∧ ¬ IsBytes m key) := by
  unfold assertEntry IsBytes
  cases m.lookup key with
  | none => exact .inr ⟨rfl,by simp⟩
  | some v =>
    cases v with
    | bytes s => exact .inl ⟨s,rfl,rfl⟩
    | _ => exact .inr ⟨rfl,by simp⟩

theorem newFindNodeResponse_map {m : Dict Slice} (hm : Produced p.buf.length (.map m))
    (hr : p.data.lookup (ascii "r") = some (.map m)) :
    (∃ res, newFindNodeResponse p = .ok (some res) ∧ ResponseFields p m) ∨
    (newFindNodeResponse p = .panic .typeAssertion ∧ ¬ ResponseFields p m) := by
  have hget : p.get (ascii "r") = some (.map m) := hr
  unfold newFindNodeResponse Packet.getT
  rw [hget]
  rcases getBytes_cases p (ascii "t") with ⟨tid,ht,hb,-⟩ | ⟨ht,hb⟩
  · rcases assertEntry_cases m (ascii "id") with ⟨target,hid,hl⟩ | ⟨hid,hn⟩
    · rcases assertEntry_cases m (ascii "nodes") with ⟨raw,hraw,hl'⟩ | ⟨hraw,hn⟩
      · obtain ⟨off,len,rfl,hle⟩ := (hm.of_lookup hl').view
        obtain ⟨nodes,hnodes⟩ := rawNodesFrom_ok hle (Slice.view off len).length 0
        refine .inl ⟨⟨tid,target,nodes⟩,?_,hb,⟨_,hl⟩,⟨_,hl'⟩⟩
        simp only [ht,hid,hraw,hnodes,Outcome.ok_bind,Outcome.pure_eq]
      · exact .inr ⟨by simp only [ht,hid,hraw,Outcome.ok_bind,Outcome.panic_bind],fun h => hn h.2.2⟩
    · exact .inr ⟨by simp only [ht,hid,Outcome.ok_bind,Outcome.panic_bind],fun h => hn h.2.1⟩
  · exact .inr ⟨by simp only [ht,Outcome.panic_bind],fun h => hb h.1⟩

theorem newFindNodeResponse_other {v : Value Slice} (hr : p.data.lookup (ascii "r") = some v)
    (hv : ∀ m, v ≠ .map m) :
    newFindNodeResponse p = .ok none ∨ newFindNodeResponse p = .panic .typeAssertion := by
  have hget : p.get (ascii "r") = some v := hr
  unfold newFindNodeResponse Packet.getT
  rw [hget]
  rcases getBytes_cases p (ascii "t") with ⟨tid,ht,-,-⟩ | ⟨ht,-⟩
  · rw [ht]
    cases v with
    | map m => exact absurd rfl (hv m)
    | _ => exact .inl rfl
  · exact .inr (by rw [ht]; rfl)

theorem onResponse_panics_iff (hp : Produced p.buf.length (.map p.data)) :
    (onResponse c p).Panics ↔ ¬ ResponseReady p := by
  have hpath : checkMapPath p.data (ascii "r.nodes") = (nested p.data (ascii "r") (ascii "nodes")).isSome := by
    rw [checkMapPath,@getByPath_two _ p.data _ (ascii "r") (ascii "nodes") (by decide +kernel)]
  unfold onResponse
  rw [hpath,nested]
  cases hr : p.data.lookup (ascii "r") with
  | none =>
    refine iff_of_false (by simp) (not_not_intro ?_)
    intro v hv
    rw [hr] at hv
    cases hv
  | some v =>
    have hready : ResponseReady p ↔ ∃ m, v = .map m ∧ (m.lookup (ascii "nodes") = none ∨ ResponseFields p m) := by
      simp only [ResponseReady,hr,Option.some.injEq,forall_eq']
    by_cases hmap : ∃ m, v = .map m
    · obtain ⟨m,rfl⟩ := hmap
      cases hn : m.lookup (ascii "nodes") with
      | none => exact iff_of_false (by simp [hn]) (not_not_intro (hready.mpr ⟨m,rfl,.inl hn⟩))
      | some w =>
        rcases newFindNodeResponse_map (hp.of_lookup hr) hr with ⟨res,h,hf⟩ | ⟨h,hf⟩
        · refine iff_of_false ?_ (not_not_intro (hready.mpr ⟨m,rfl,.inr hf⟩))
          simp [hn,h,onFindNodeResponse_not_panics]
        · refine iff_of_true (by simp [hn,h]) ?_
          rw [hready]
          rintro ⟨m',hm,ho⟩
          cases hm
          rcases ho with ho | ho
          · rw [hn] at ho
            cases ho
          · exact hf ho
    · -- Parsing fails with an error or a panic, and either way the handler panics.
      have hv : ∀ m, v ≠ .map m := fun m h => hmap ⟨m,h⟩
      refine iff_of_true ?_ (fun h => hmap ((hready.mp h).imp fun m hm => hm.1))
      rcases newFindNodeResponse_other hr hv with h | h
      · cases v <;> first | exact absurd rfl (hv _) | simp [h]
      · cases v <;> first | exact absurd rfl (hv _) | simp [h]

theorem splitOn_id : (ascii "a.id").splitOn '.'.toUInt8 = [ascii "a",ascii "id"] := by decide +kernel

theorem mustGetBytes_senderID {data : Dict Slice} {s : Slice} :
    mustGetBytes data (ascii "a.id") = some s ↔ SenderID data s := by
  rw [mustGetBytes_eq_some,getByPath_two splitOn_id,nested_eq_bytes]
  rfl

/-- What a path of two components finds in decoded data is a view of the datagram. -/
theorem mustGetBytes_view {size : ℕ} {data : Dict Slice} {path first second : Bytes} {s : Slice}
    (hpath : path.splitOn '.'.toUInt8 = [first,second]) (hp : Produced size (.map data))
    (h : mustGetBytes data path = some s) : ∃ off len, s = .view off len ∧ off + len ≤ size := by
  rw [mustGetBytes_eq_some,getByPath_two hpath,nested_eq_bytes] at h
  rcases h with ⟨m,hm,hs⟩ | hs
  · exact ((hp.of_lookup hm).of_lookup hs).view
  · exact (hp.of_lookup hs).view

theorem splitOn_infoHash : (ascii "a.info_hash").splitOn '.'.toUInt8 = [ascii "a",ascii "info_hash"] := by
  decide +kernel

/-- The hash of a request reaches far enough for a neighbour ID. -/
theorem getPeersInfoHash_cap {mem : Bytes} {data : Dict Slice} {nid : Slice}
    (hp : Produced mem.length (.map data)) (h : getPeersInfoHash data = some nid) : 20 ≤ nid.cap mem := by
  unfold getPeersInfoHash at h
  cases hm : mustGetBytes data (ascii "a.info_hash") with
  | none => simp [hm] at h
  | some s =>
    obtain ⟨off,len,rfl,hle⟩ := mustGetBytes_view splitOn_infoHash hp hm
    simp only [hm] at h
    split at h
    · cases h
    · cases h
      simp only [Slice.cap]
      omega

theorem onGetPeersRequest_panics_iff {addr : AddrPort} (hn : c.nodeID.length = 20)
    (hp : Produced p.buf.length (.map p.data)) :
    (onGetPeersRequest c p addr).Panics ↔ ¬ BytesOrAbsent p.data (ascii "t") := by
  unfold onGetPeersRequest Packet.getT
  rcases getBytes_cases p (ascii "t") with ⟨tid,ht,hb,-⟩ | ⟨ht,hb⟩
  · refine iff_of_false ?_ (not_not_intro hb)
    rw [ht,Outcome.ok_bind]
    cases tid with
    | none => simp
    | some tid =>
      cases hh : getPeersInfoHash p.data with
      | none => simp
      | some nid =>
        have hcap := getPeersInfoHash_cap hp hh
        simp [Outcome.bind_panics,getNeighbourID_panics_iff hn]
        omega
  · exact iff_of_true (by simp [ht]) hb

theorem onAnnouncePeerRequest_panics_iff {addr : AddrPort} (hn : c.nodeID.length = 20) :
    (onAnnouncePeerRequest c p addr).Panics ↔ ¬ AnnounceReady p := by
  unfold onAnnouncePeerRequest Packet.getT
  rcases getBytes_cases p (ascii "t") with ⟨tid,ht,hb,-⟩ | ⟨ht,hb⟩
  · rw [ht,Outcome.ok_bind]
    refine (Outcome.bind_panics_of_not fun _ => Outcome.ok_not_panics _).trans ?_
    rw [getNeighbourID_panics_iff hn]
    cases hs : mustGetBytes p.data (ascii "a.id") with
    | none =>
      refine iff_of_true (Nat.zero_lt_succ 9) ?_
      rintro ⟨-,s,hsend,-⟩
      rw [mustGetBytes_senderID.mpr hsend] at hs
      cases hs
    | some s =>
      rw [show orNil (some s) = s from rfl,← Nat.not_le]
      apply not_congr
      constructor
      · intro hcap
        exact ⟨hb,s,mustGetBytes_senderID.mp hs,hcap⟩
      · rintro ⟨-,s',hsend,hcap⟩
        rw [mustGetBytes_senderID.mpr hsend] at hs
        cases hs
        exact hcap
  · exact iff_of_true (by simp [ht]) (fun h => hb h.1)

theorem onQuery_panics_iff {addr : AddrPort} (hn : c.nodeID.length = 20)
    (hp : Produced p.buf.length (.map p.data)) : (onQuery c p addr).Panics ↔ ¬ QueryReady p := by
  unfold onQuery Packet.getQ
  rcases getString_cases p (ascii "q") with ⟨q,hq,hqb,hqs⟩ | ⟨hq,hqb⟩
  · rw [hq,Outcome.ok_bind]
    have hsg := hqs (ascii "get_peers") (by decide)
    have hsa := hqs (ascii "announce_peer") (by decide)
    by_cases hg : q = ascii "get_peers"
    · rw [if_pos hg,onGetPeersRequest_panics_iff hn hp]
      have hna : ¬ Says p (ascii "q") (ascii "announce_peer") := by
        rw [hsa,hg]
        decide
      apply not_congr
      constructor
      · intro h
        exact ⟨hqb,fun _ => h,fun ha => absurd ha hna⟩
      · intro h
        exact h.getPeers (hsg.mpr hg)
    have hng : ¬ Says p (ascii "q") (ascii "get_peers") := mt hsg.mp hg
    rw [if_neg hg]
    by_cases ha : q = ascii "announce_peer"
    · rw [if_pos ha,onAnnouncePeerRequest_panics_iff hn]
      apply not_congr
      constructor
      · intro h
        exact ⟨hqb,fun hs => absurd hs hng,fun _ => h⟩
      · intro h
        exact h.announce (hsa.mpr ha)
    · rw [if_neg ha]
      refine iff_of_false (Outcome.ok_not_panics c) (not_not_intro ?_)
      exact ⟨hqb,fun hs => absurd hs hng,fun hs => absurd hs (mt hsa.mp ha)⟩
  · rw [hq]
    exact iff_of_true (Outcome.panic_panics _) (fun h => hqb h.kind)

end Branches

/-- With a node ID of 20 octets a handler panics on no packet but those that are not handleable. -/
theorem onMessage_safe_iff_handleable {c : Crawler} {p : Packet AddrPort} (addr : AddrPort)
    (hn : c.nodeID.length = 20) (hp : Produced p.buf.length (.map p.data)) :
    ¬ (onMessage c p addr).Panics ↔ Handleable p := by
  unfold onMessage Packet.getY
  rcases getString_cases p (ascii "y") with ⟨y,hy,hyb,hys⟩ | ⟨hy,hyb⟩
  · rw [hy,Outcome.ok_bind]
    have hsr := hys (ascii "r") (by decide)
    have hsq := hys (ascii "q") (by decide)
    by_cases hr : y = ascii "r"
    · rw [if_pos hr,onResponse_panics_iff hp,not_not]
      have hnq : ¬ Says p (ascii "y") (ascii "q") := by
        rw [hsq,hr]
        decide
      constructor
      · intro h
        exact ⟨hyb,fun _ => h,fun hq => absurd hq hnq⟩
      · intro h
        exact h.response (hsr.mpr hr)
    have hnr : ¬ Says p (ascii "y") (ascii "r") := mt hsr.mp hr
    rw [if_neg hr]
    by_cases hq : y = ascii "q"
    · rw [if_pos hq,onQuery_panics_iff hn hp,not_not]
      constructor
      · intro h
        exact ⟨hyb,fun hs => absurd hs hnr,fun _ => h⟩
      · intro h
        exact h.query (hsq.mpr hq)
    · rw [if_neg hq]
      refine iff_of_true (Outcome.ok_not_panics c) ?_
      exact ⟨hyb,fun hs => absurd hs hnr,fun hs => absurd hs (mt hsq.mp hq)⟩
  · rw [hy]
    exact iff_of_false (not_not_intro (Outcome.panic_panics _)) (fun h => hyb h.kind)

/-- A crawler with empty queues and a node ID of twenty zeros. -/
def idleCrawler : Crawler := ⟨List.replicate 20 0,0,[],.newLRWCache 60 8 false,[],[]⟩

def localPeer : AddrPort := ⟨.v4 #v[127,0,0,1],6881⟩

/-- An announcement with a sender ID of twenty octets, as decoding leaves it. -/
def announcement : Packet AddrPort where
  buf := ascii "d1:ad2:id20:abcdefghijabcdefghije1:q13:announce_peer1:y1:qe"
  data := [(ascii "a",.map [(ascii "id",.bytes (.view 12 20))]),(ascii "q",.bytes (.view 39 13)),
    (ascii "y",.bytes (.view 57 1))]
  addr := localPeer

theorem announcement_produced : Produced announcement.buf.length (.map announcement.data) := by
  have hlen : announcement.buf.length = 59 := by decide +kernel
  rw [hlen]
  refine .map (by unfold KeyMap.Sorted announcement; decide) ?_
  simp only [announcement,List.mem_cons,List.not_mem_nil,or_false,forall_eq_or_imp,forall_eq]
  refine ⟨.map (by unfold KeyMap.Sorted; decide) ?_,.bytes (by decide),.bytes (by decide)⟩
  simp only [List.mem_cons,List.not_mem_nil,or_false,forall_eq]
  exact .bytes (by decide)

theorem announcement_handleable :
    ¬ (onMessage idleCrawler announcement localPeer).Panics ∧ Handleable announcement := by
  have hsafe : ¬ (onMessage idleCrawler announcement localPeer).Panics := by decide +kernel
  exact ⟨hsafe,(onMessage_safe_iff_handleable localPeer rfl announcement_produced).mp hsafe⟩

/-- Panics when the datagram decodes and its handler panics. -/
def handlerPanicsOn (text : String) : Bool :=
  (newPacketFromBuffer (ascii text) localPeer).decode.okAnd
    (fun p => decide (onMessage idleCrawler p localPeer).Panics)

/-- An announcement without a sender ID, a response that is not a map, a number for the
type of a packet, and a number for the transaction ID of a query. -/
theorem malformed_packets_panic :
    handlerPanicsOn "d1:q13:announce_peer1:y1:qe" ∧ handlerPanicsOn "d1:ri0e1:y1:re" ∧
    handlerPanicsOn "d1:yi1ee" ∧ handlerPanicsOn "d1:q9:get_peers1:ti0e1:y1:qe" := by
  decide +kernel

end DhtOcean.Krpc
