import DhtOcean.Krpc.HandlerSafety

/-! # The nodes of a find_node response

Nodes are packed into records of 26 octets. The loop that unpacks them stops in
front of a record that no further octet follows, so it loses the last node of a
response that ends with its last record.
-/
namespace DhtOcean.Krpc
open Foundation Bencode

structure CompactNode where
  nodeID : Vector UInt8 20
  ip : Vector UInt8 4
  port : UInt16
  deriving DecidableEq, Repr

def CompactNode.pack (n : CompactNode) : Bytes := n.nodeID.toList ++ (n.ip.toList ++ beBytes 2 n.port.toNat)

def Node.Shows (mem : Bytes) (node : Node) (n : CompactNode) : Prop :=
  node.nodeID.read mem = n.nodeID.toList ∧ node.addr = ⟨.v4 n.ip,n.port⟩

/-- The response is parsed into exactly these nodes, in their order. -/
def Yields {Addr : Type} (p : Packet Addr) (ns : List CompactNode) : Prop :=
  ∃ res, newFindNodeResponse p = .ok (some res) ∧ List.Forall₂ (Node.Shows p.buf) res.nodes ns

/-- A view ends where its array does, or before. -/
def Within (mem : Bytes) : Slice → Prop
  | .view off len => off + len ≤ mem.length
  | .owned _ => True

section Records
variable {mem : Bytes} {s : Slice}

theorem Within.length_read (h : Within mem s) : (s.read mem).length = s.length := by
  cases s with
  | view off len => exact read_view_length h
  | owned b => rfl

/-- Inside its length, a slice is cut as the octets that it shows. -/
theorem Within.cut (h : Within mem s) {lo hi : ℕ} (hlo : lo ≤ hi) (hhi : hi ≤ s.length) :
    ∃ s', cut mem s lo hi = .ok s' ∧ Within mem s' ∧ s'.read mem = ((s.read mem).drop lo).take (hi - lo) := by
  cases s with
  | view off len =>
    simp only [Within,Slice.length] at h hhi
    refine ⟨_,cut_view hlo (by omega),?_,?_⟩
    · simp only [Within]
      omega
    · simp only [Slice.read]
      rw [List.drop_take,List.take_take,List.drop_drop,Nat.min_eq_left (by omega)]
  | owned b =>
    refine ⟨.owned ((b.drop lo).take (hi - lo)),?_,trivial,rfl⟩
    rw [Krpc.cut,if_pos ⟨hlo,hhi⟩]

theorem CompactNode.length_pack (n : CompactNode) : n.pack.length = rawNodeLength := by
  simp [pack,rawNodeLength]

theorem getIP_eq {rawIP : Slice} {ip : Vector UInt8 4} (h : rawIP.read mem = ip.toList) :
    getIP mem rawIP = .ok (.v4 ip) := by
  obtain ⟨a,b,c,d,hip⟩ := List.length_eq_four.mp ip.length_toList
  have hv : ip = #v[a,b,c,d] := Vector.toList_inj.mp hip
  rw [getIP,h,hip,hv]

theorem getPort_eq {rawPort : Slice} {port : UInt16} (h : rawPort.read mem = beBytes 2 port.toNat) :
    getPort mem rawPort = .ok port := by
  obtain ⟨hi,lo,hport⟩ := List.length_eq_two.mp (length_beBytes 2 port.toNat)
  have hvalue : beValue (beBytes 2 port.toNat) = port.toNat := beValue_beBytes port.toNat_lt
  rw [getPort,h,hport]
  rw [hport] at hvalue
  simp only [hvalue,UInt16.ofNat_toNat]

theorem newNodeFromRaw_shows {n : CompactNode} (h : Within mem s) (hread : s.read mem = n.pack) :
    ∃ node, newNodeFromRaw mem s = .ok node ∧ node.Shows mem n := by
  have hlen : s.length = 26 := by rw [← h.length_read,hread,n.length_pack]; rfl
  obtain ⟨nodeID,hid,-,hidRead⟩ := h.cut (show 0 ≤ 20 by omega) (by omega)
  obtain ⟨rawIP,hip,-,hipRead⟩ := h.cut (show 20 ≤ 24 by omega) (by omega)
  obtain ⟨rawPort,hport,-,hportRead⟩ := h.cut (show 24 ≤ 26 by omega) (by omega)
  rw [hread,CompactNode.pack] at hidRead hipRead hportRead
  have hidRead : nodeID.read mem = n.nodeID.toList := by
    rw [hidRead,List.drop_zero,List.take_left' n.nodeID.length_toList]
  have hipRead : rawIP.read mem = n.ip.toList := by
    rw [hipRead,List.drop_left' n.nodeID.length_toList,List.take_left' n.ip.length_toList]
  have hportRead : rawPort.read mem = beBytes 2 n.port.toNat := by
    rw [hportRead,← List.append_assoc,List.drop_left' (by simp),List.take_of_length_le (by simp)]
  refine ⟨⟨nodeID,.v4 n.ip,n.port⟩,?_,hidRead,rfl⟩
  simp only [newNodeFromRaw,hid,hip,hport,Outcome.ok_bind,getIP_eq hipRead,getPort_eq hportRead,Outcome.pure_eq]

/-- The loop unpacks the records in front of the last octets, up to 26 of them. -/
theorem rawNodesFrom_shows (h : Within mem s) {ns : List CompactNode} {tail : Bytes} {i fuel : ℕ}
    (hread : (s.read mem).drop (i*rawNodeLength) = ns.flatMap CompactNode.pack ++ tail) (hne : tail ≠ [])
    (hle : tail.length ≤ rawNodeLength) (hfuel : ns.length ≤ fuel) :
    ∃ nodes, rawNodesFrom mem s fuel i = .ok nodes ∧ List.Forall₂ (Node.Shows mem) nodes ns := by
  induction ns generalizing i fuel with
  | nil =>
    cases fuel with
    | zero => exact ⟨[],rfl,.nil⟩
    | succ fuel =>
      have hlen := congrArg List.length hread
      rw [List.length_drop,h.length_read,List.flatMap_nil,List.nil_append] at hlen
      have hstop : ¬ (i+1)*rawNodeLength < s.length := by
        unfold rawNodeLength at *
        omega
      exact ⟨[],by rw [rawNodesFrom,if_neg hstop],.nil⟩
  | cons n ns ih =>
    obtain ⟨fuel,rfl⟩ : ∃ k, fuel = k + 1 := ⟨fuel - 1,by rw [List.length_cons] at hfuel; omega⟩
    rw [List.flatMap_cons,List.append_assoc] at hread
    have hlen := congrArg List.length hread
    rw [List.length_drop,h.length_read,List.length_append,List.length_append,n.length_pack] at hlen
    have hpos := List.length_pos_of_ne_nil hne
    have hgo : (i+1)*rawNodeLength < s.length := by
      unfold rawNodeLength at *
      omega
    have hstart : i*rawNodeLength ≤ (i+1)*rawNodeLength := Nat.mul_le_mul_right _ (Nat.le_succ i)
    obtain ⟨raw,hcut,hraw,hrawRead⟩ := h.cut hstart (Nat.le_of_lt hgo)
    have hwidth : (i+1)*rawNodeLength - i*rawNodeLength = rawNodeLength := by
      rw [Nat.succ_mul,Nat.add_sub_cancel_left]
    rw [hwidth,hread,List.take_left' n.length_pack] at hrawRead
    obtain ⟨node,hnode,hshows⟩ := newNodeFromRaw_shows hraw hrawRead
    have hrest : (s.read mem).drop ((i+1)*rawNodeLength) = ns.flatMap CompactNode.pack ++ tail := by
      rw [Nat.succ_mul,← List.drop_drop,hread,List.drop_left' n.length_pack]
    obtain ⟨nodes,hnodes,hall⟩ := ih hrest (Nat.le_of_succ_le_succ hfuel)
    refine ⟨node :: nodes,?_,.cons hshows hall⟩
    rw [rawNodesFrom,if_pos hgo]
    simp only [hcut,hnode,hnodes,Outcome.ok_bind,Outcome.pure_eq]

theorem length_flatMap_pack (ns : List CompactNode) :
    (ns.flatMap CompactNode.pack).length = ns.length*rawNodeLength := by
  induction ns with
  | nil => rfl
  | cons n ns ih => rw [List.flatMap_cons,List.length_append,n.length_pack,ih,List.length_cons,Nat.succ_mul,Nat.add_comm]

/-- What the loop finds in a response, with and without octets behind the last record. -/
theorem rawNodesFrom_all (h : Within mem s) {ns : List CompactNode} {tail : Bytes}
    (hread : s.read mem = ns.flatMap CompactNode.pack ++ tail) (hle : tail.length ≤ 25) :
    ∃ nodes, rawNodesFrom mem s s.length 0 = .ok nodes ∧
      List.Forall₂ (Node.Shows mem) nodes (if tail = [] then ns.dropLast else ns) := by
  have hlen : s.length = ns.length*rawNodeLength + tail.length := by
    rw [← h.length_read,hread,List.length_append,length_flatMap_pack]
  have hfuel : ns.length ≤ s.length := by
    rw [hlen,rawNodeLength]
    omega
  by_cases ht : tail = []
  · subst ht
    rw [if_pos rfl]
    cases List.eq_nil_or_concat ns with
    | inl hnil =>
      subst hnil
      refine ⟨[],?_,.nil⟩
      rw [hlen]
      rfl
    | inr hsplit =>
      -- The last record plays the part of the octets that follow.
      obtain ⟨front,last,rfl⟩ := hsplit
      rw [List.concat_eq_append] at *
      rw [List.dropLast_concat]
      refine @rawNodesFrom_shows _ _ h _ last.pack _ _ ?_ ?_ (Nat.le_of_eq last.length_pack) ?_
      · rw [Nat.zero_mul,List.drop_zero,hread]
        simp
      · intro hnil
        have := last.length_pack
        rw [hnil] at this
        cases this
      · rw [List.length_append] at hfuel
        omega
  · rw [if_neg ht]
    refine rawNodesFrom_shows h ?_ ht (by unfold rawNodeLength; omega) hfuel
    rw [Nat.zero_mul,List.drop_zero,hread]

end Records

/-- A response yields the nodes packed into it exactly when something follows the last of them, or
there are none, and its transaction ID is no value of another type. -/
theorem yields_iff {Addr : Type} (p : Packet Addr) (m : Dict Slice) (id nodes : Slice) (ns : List CompactNode)
    (tail : Bytes) (hr : p.data.lookup (ascii "r") = some (.map m)) (hid : m.lookup (ascii "id") = some (.bytes id))
    (hnodes : m.lookup (ascii "nodes") = some (.bytes nodes)) (hwithin : Within p.buf nodes)
    (hread : nodes.read p.buf = ns.flatMap CompactNode.pack ++ tail) (htail : tail.length ≤ 25) :
    Yields p ns ↔ BytesOrAbsent p.data (ascii "t") ∧ (ns = [] ∨ tail ≠ []) := by
  have hget : p.get (ascii "r") = some (.map m) := hr
  have hid : assertEntry m (ascii "id") = .ok id := by rw [assertEntry,hid]; rfl
  have hnodes : assertEntry m (ascii "nodes") = .ok nodes := by rw [assertEntry,hnodes]; rfl
  obtain ⟨found,hfound,hall⟩ := rawNodesFrom_all hwithin hread htail
  rcases getBytes_cases p (ascii "t") with ⟨tid,ht,hb,-⟩ | ⟨ht,hb⟩
  · have hres : newFindNodeResponse p = .ok (some ⟨tid,id,found⟩) := by
      simp only [newFindNodeResponse,Packet.getT,ht,hget,hid,hnodes,hfound,Outcome.ok_bind,Outcome.pure_eq]
    have hyields : Yields p ns ↔ List.Forall₂ (Node.Shows p.buf) found ns := by
      constructor
      · rintro ⟨res,h,hshows⟩
        cases hres.symm.trans h
        exact hshows
      · exact fun h => ⟨_,hres,h⟩
    rw [hyields]
    constructor
    · intro h
      refine ⟨hb,?_⟩
      by_contra hlost
      obtain ⟨hns,htail⟩ := not_or.mp hlost
      have htail : tail = [] := Classical.not_not.mp htail
      -- The last of the nodes is missing.
      have hcount := hall.length_eq
      rw [if_pos htail,List.length_dropLast,h.length_eq] at hcount
      have hpos := List.length_pos_of_ne_nil hns
      omega
    · rintro ⟨-,rfl | htail⟩
      · simpa using hall
      · rwa [if_neg htail] at hall
  · apply iff_of_false
    · rintro ⟨res,h,-⟩
      simp [newFindNodeResponse,Packet.getT,ht] at h
    · exact fun h => hb h.1

section Sample

def sampleNode : CompactNode := ⟨Vector.replicate 20 7,Vector.replicate 4 10,6881⟩

def samplePacket (ns : List CompactNode) (tail : Bytes) : Packet Unit where
  buf := ns.flatMap CompactNode.pack ++ tail
  data := [(ascii "r",.map [(ascii "id",.bytes (.owned [])),
    (ascii "nodes",.bytes (.view 0 (ns.length*rawNodeLength + tail.length)))])]
  addr := ()

theorem twoNodes_yielded : Yields (samplePacket [sampleNode,sampleNode] [0]) [sampleNode,sampleNode] := by
  refine (yields_iff (samplePacket [sampleNode,sampleNode] [0]) _ (.owned []) (.view 0 53) _ [0] rfl rfl rfl ?_ ?_ ?_).mpr ⟨?_,?_⟩
  · change 0 + 53 ≤ (samplePacket [sampleNode,sampleNode] [0]).buf.length
    decide +kernel
  · decide +kernel
  · decide
  · intro v hv
    cases hv
  · exact .inr (List.cons_ne_nil _ _)

/-- A response of one node and nothing behind it has no nodes. -/
theorem singleNode_lost : newFindNodeResponse (samplePacket [sampleNode] []) = .ok (some ⟨none,.owned [],[]⟩) ∧
    ¬ Yields (samplePacket [sampleNode] []) [sampleNode] := by
  have hnone : newFindNodeResponse (samplePacket [sampleNode] []) = .ok (some ⟨none,.owned [],[]⟩) := rfl
  refine ⟨hnone,?_⟩
  rintro ⟨res,hres,hshows⟩
  cases hnone.symm.trans hres
  cases hshows

end Sample

end DhtOcean.Krpc
