import DhtOcean.Foundation.HostPort
import DhtOcean.Krpc.Aliasing

/-! # The address a torrent is fetched from

An announcement names its peer by the sender's address, or by the sender's host with
a port of its own. The second text is put together without brackets, so for an IPv6
sender it is not the text of any address.
-/
namespace DhtOcean.Krpc
open Foundation Bencode

/-- The text that `onAnnouncePeerRequest` puts together; an address that did not parse prints
as `invalid IP`. -/
def announcedAddr (addr : AddrPort) (impliedPort port : Int64) : Bytes :=
  if impliedPort = 0 then
    let host := match parseAddrPort addr.text with
      | some addrPort => addrPort.ip.text
      | none => ascii "invalid IP"
    host ++ colon :: itoa port.toInt
  else addr.text

def FetchAddr.text : FetchAddr → Bytes
  | ofAddr addr => addr.text
  | hostPort ip port => ip.unmap.text ++ colon :: itoa port.toInt

/-- The sender's address always parses. -/
theorem announcedAddr_eq (addr : AddrPort) (impliedPort port : Int64) :
    announcedAddr addr impliedPort port =
      (if impliedPort = 0 then FetchAddr.hostPort addr.ip port else .ofAddr addr).text := by
  rw [announcedAddr,parseAddrPort_text]
  split <;> rfl

/-- An announcement that is handled pushes one request. -/
theorem onAnnouncePeerRequest_pushes {c c' : Crawler} {p : Packet AddrPort} {addr : AddrPort}
    (h : onAnnouncePeerRequest c p addr = .ok c') :
    ∃ r, c'.requests = c.requests ++ [r] ∧ r.addr.text =
      announcedAddr addr (getInt p.data (ascii "a.implied_port")).1 (getInt p.data (ascii "a.port")).1 := by
  unfold onAnnouncePeerRequest at h
  obtain ⟨tid,-,h⟩ := Outcome.bind_eq_ok.mp h
  obtain ⟨⟨nodeID,mem⟩,-,h⟩ := Outcome.bind_eq_ok.mp h
  cases h
  exact ⟨_,congrArg (· ++ [_]) (sendPacket_requests _ _),(announcedAddr_eq _ _ _).symm⟩

section Arguments
variable {data m : Dict Slice}

/-- A field of the arguments `a` of a query. -/
def argument (data : Dict Slice) (key : Bytes) : Option (Value Slice) := descend (.map data) [ascii "a",key]

/-- The announcement has `implied_port`, and it is a non-zero integer. -/
def ImpliesPort (data : Dict Slice) : Prop := ∃ n, argument data (ascii "implied_port") = some (.int n) ∧ n ≠ 0

/-- The announcement does not imply its port, and has a valid one of its own. -/
structure AnnouncesPort (data : Dict Slice) (n : Int64) : Prop where
  explicit : ¬ ImpliesPort data
  port : argument data (ascii "port") = some (.int n)
  pos : 1 ≤ n.toInt
  le : n.toInt ≤ 65535

theorem argument_of_map (ha : data.lookup (ascii "a") = some (.map m)) (key : Bytes) :
    argument data key = m.lookup key := by
  rw [argument,descend,ha,Option.bind_some,descend]
  cases m.lookup key <;> rfl

theorem argument_eq_some {key : Bytes} {v : Value Slice} (h : argument data key = some v) :
    ∃ m, data.lookup (ascii "a") = some (.map m) := by
  rw [argument,descend] at h
  obtain ⟨w,ha,hw⟩ := Option.bind_eq_some_iff.mp h
  cases w with
  | map m => exact ⟨m,ha⟩
  | _ => cases hw

/-- With arguments in a map, the getter reads the field itself. -/
theorem getInt_argument {path key : Bytes} (hpath : path.splitOn '.'.toUInt8 = [ascii "a",key])
    (ha : data.lookup (ascii "a") = some (.map m)) :
    (∃ n, argument data key = some (.int n) ∧ getInt data path = (n,true)) ∨
    ((∀ n, argument data key ≠ some (.int n)) ∧ getInt data path = (0,false)) := by
  rw [argument_of_map ha,getInt,getByPath_two hpath,nested_of_map key ha]
  split
  · rename_i n hn
    exact .inl ⟨n,hn,rfl⟩
  · rename_i hne
    exact .inr ⟨hne,rfl⟩

theorem splitOn_impliedPort : (ascii "a.implied_port").splitOn '.'.toUInt8 = [ascii "a",ascii "implied_port"] := by
  decide +kernel

theorem splitOn_port : (ascii "a.port").splitOn '.'.toUInt8 = [ascii "a",ascii "port"] := by
  decide +kernel

theorem impliedPort_of_implies (h : ImpliesPort data) : (getInt data (ascii "a.implied_port")).1 ≠ 0 := by
  obtain ⟨n,hn,hne⟩ := h
  obtain ⟨m,ha⟩ := argument_eq_some hn
  rcases getInt_argument splitOn_impliedPort ha with ⟨k,hk,hget⟩ | ⟨hno,-⟩
  · cases hn.symm.trans hk
    rw [hget]
    exact hne
  · exact absurd hn (hno n)

theorem AnnouncesPort.getInt {n : Int64} (h : AnnouncesPort data n) :
    (getInt data (ascii "a.implied_port")).1 = 0 ∧ (Bencode.getInt data (ascii "a.port")).1 = n := by
  obtain ⟨m,ha⟩ := argument_eq_some h.port
  constructor
  · rcases getInt_argument splitOn_impliedPort ha with ⟨k,hk,hget⟩ | ⟨-,hget⟩
    · rw [hget]
      by_contra hne
      exact h.explicit ⟨k,hk,hne⟩
    · rw [hget]
  · rcases getInt_argument splitOn_port ha with ⟨k,hk,hget⟩ | ⟨hno,-⟩
    · cases h.port.symm.trans hk
      rw [hget]
    · exact absurd h.port (hno n)

end Arguments

section Denotation
variable {addr : AddrPort} {data : Dict Slice}

/-- The text parses to the IP, or to the other form of it, and to the port. -/
def Denotes (text : Bytes) (ip : IpAddr) (port : ℕ) : Prop :=
  ∃ a, parseAddrPort text = some a ∧ a.ip.unmap = ip.unmap ∧ a.port.toNat = port

/-- The text denotes the sender with its source port if that is implied, and with the port
that was announced otherwise. -/
structure NamesPeer (data : Dict Slice) (addr : AddrPort) (text : Bytes) : Prop where
  source : ImpliesPort data → Denotes text addr.ip addr.port.toNat
  announced : ∀ n, AnnouncesPort data n → Denotes text addr.ip n.toInt.toNat

theorem denotes_text (addr : AddrPort) : Denotes addr.text addr.ip addr.port.toNat :=
  ⟨_,parseAddrPort_text addr,addr.ip.unmapped_unmap.unmap_eq,rfl⟩

theorem denotes_bare_iff (ip : IpAddr) {n : ℕ} (hn : n < 65536) :
    Denotes (ip.unmap.text ++ colon :: formatNat n) ip n ↔ ip.unmap.isV6 = false := by
  have hip := ip.unmapped_unmap
  rw [Denotes,parseAddrPort_bare hip hn]
  by_cases hv4 : ip.unmap.isV6 = false
  · have hback : (UInt16.ofNat n).toNat = n := UInt16.toNat_ofNat_of_lt' hn
    rw [if_pos hv4]
    exact iff_of_true ⟨_,rfl,hip.unmap_eq,hback⟩ hv4
  · rw [if_neg hv4]
    apply iff_of_false
    · rintro ⟨a,ha,-⟩
      cases ha
    · exact hv4

theorem announcedAddr_of_announcesPort {n : Int64} (h : AnnouncesPort data n) :
    announcedAddr addr (getInt data (ascii "a.implied_port")).1 (getInt data (ascii "a.port")).1 =
      addr.ip.unmap.text ++ colon :: formatNat n.toInt.toNat := by
  obtain ⟨himplied,hport⟩ := h.getInt
  have hpos := h.pos
  have habs : n.toInt.natAbs = n.toInt.toNat := by omega
  rw [himplied,hport,announcedAddr_eq,if_pos rfl,FetchAddr.text,itoa,if_neg (by omega),habs]

/-- The text names the peer unless an IPv6 sender announces a port of its own. -/
theorem announcedAddr_namesPeer_iff (addr : AddrPort) (data : Dict Slice) :
    NamesPeer data addr
      (announcedAddr addr (getInt data (ascii "a.implied_port")).1 (getInt data (ascii "a.port")).1) ↔
      addr.ip.unmap.isV6 = false ∨ ∀ n, ¬ AnnouncesPort data n := by
  constructor
  · intro h
    by_cases hport : ∃ n, AnnouncesPort data n
    · obtain ⟨n,hn⟩ := hport
      have hle := hn.le
      have hdenotes := h.announced n hn
      rw [announcedAddr_of_announcesPort hn,denotes_bare_iff addr.ip (by omega)] at hdenotes
      exact .inl hdenotes
    · exact .inr (not_exists.mp hport)
  · intro h
    refine ⟨?_,?_⟩
    · intro himplied
      rw [announcedAddr,if_neg (impliedPort_of_implies himplied)]
      exact denotes_text addr
    · intro n hn
      have hle := hn.le
      rcases h with hv4 | hnone
      · rw [announcedAddr_of_announcesPort hn,denotes_bare_iff addr.ip (by omega)]
        exact hv4
      · exact absurd hn (hnone n)

end Denotation

/-- The address that is pushed names the announcing peer exactly when the peer is not an IPv6 sender
that announces a port of its own. -/
theorem announcement_namesPeer_iff {c c' : Crawler} {p : Packet AddrPort} {addr : AddrPort}
    (h : onAnnouncePeerRequest c p addr = .ok c') :
    ∃ r, c'.requests = c.requests ++ [r] ∧
      (NamesPeer p.data addr r.addr.text ↔ addr.ip.unmap.isV6 = false ∨ ∀ n, ¬ AnnouncesPort p.data n) := by
  obtain ⟨r,hr,htext⟩ := onAnnouncePeerRequest_pushes h
  refine ⟨r,hr,?_⟩
  rw [htext]
  exact announcedAddr_namesPeer_iff addr p.data

section Sample

/-- An announcement of port 6881 that does not imply it, as decoding leaves it. -/
def portAnnouncement : Packet AddrPort where
  buf := ascii "d1:ad2:id20:aaaaaaaaaaaaaaaaaaaa12:implied_porti0e4:porti6881ee1:t1:xe"
  data := [(ascii "a",.map [(ascii "id",.bytes (.view 12 20)),(ascii "implied_port",.int 0),(ascii "port",.int 6881)]),
    (ascii "t",.bytes (.view 68 1))]
  addr := localPeer

/-- The peer at `2001:db8::1`. -/
def ipv6Peer : AddrPort where
  ip := .v6 ⟨(beBytes 16 0x20010db8000000000000000000000001).toArray,length_beBytes 16 _⟩
  port := 40000

def pushesText (p : Packet AddrPort) (addr : AddrPort) (text : String) : Bool :=
  (onAnnouncePeerRequest idleCrawler p addr).okAnd (fun c => c.requests.map (fun r => r.addr.text) == [ascii text])

theorem portAnnouncement_announces : AnnouncesPort portAnnouncement.data 6881 := by
  refine ⟨?_,rfl,by decide,by decide⟩
  rintro ⟨n,hn,hne⟩
  cases hn
  exact hne rfl

theorem ipv4Announcement_named :
    ∃ c r, onAnnouncePeerRequest idleCrawler portAnnouncement localPeer = .ok c ∧ c.requests = [r] ∧
      NamesPeer portAnnouncement.data localPeer r.addr.text ∧ Denotes r.addr.text localPeer.ip 6881 := by
  have hok : (onAnnouncePeerRequest idleCrawler portAnnouncement localPeer).okAnd (fun _ => true) = true := by
    decide +kernel
  cases h : onAnnouncePeerRequest idleCrawler portAnnouncement localPeer with
  | ok c =>
    obtain ⟨r,hr,hiff⟩ := announcement_namesPeer_iff h
    have hnamed := hiff.mpr (.inl rfl)
    exact ⟨c,r,rfl,hr,hnamed,hnamed.announced 6881 portAnnouncement_announces⟩
  | _ =>
    rw [h] at hok
    cases hok

/-- An IPv6 host and its port run together: the text is not an address with a port. -/
theorem ipv6Announcement_not_named :
    pushesText portAnnouncement ipv6Peer "2001:db8::1:6881" = true ∧
    (parseAddrPort (ascii "2001:db8::1:6881")).isNone ∧
    ¬ NamesPeer portAnnouncement.data ipv6Peer (ascii "2001:db8::1:6881") := by
  have hnone : (parseAddrPort (ascii "2001:db8::1:6881")).isNone = true := by decide +kernel
  refine ⟨by decide +kernel,hnone,?_⟩
  intro h
  obtain ⟨a,ha,-⟩ := h.announced 6881 portAnnouncement_announces
  rw [ha] at hnone
  cases hnone

end Sample

end DhtOcean.Krpc
