import DhtOcean.Proxy.Protocol

/-! # Datagrams over a stream

Both ends reuse one header for all datagrams, and the reading end replaces its
buffered reader by a larger one on top of it when a datagram exceeds its size.
Neither moves the boundaries of the frames.
-/
namespace DhtOcean.Proxy
open Foundation

structure Datagram where
  addr : AddrPort
  payload : Bytes
  deriving DecidableEq, Repr

/-- The reading end of a proxied socket. -/
structure UDPConn where
  reader : Reader UInt8
  readHeader : UDPHeader

def newUDPConn (chunks : List Bytes) (bufSize : ℕ) : UDPConn where
  reader := (Reader.source chunks).newReaderSize bufSize
  readHeader := ⟨⟨0,0,0⟩,0,0⟩

/-- One datagram as `WriteTo` frames it, with the header as it leaves it. -/
def frame (h : UDPHeader) (d : Datagram) : UDPHeader × Bytes :=
  let h := { h with length := UInt32.ofNat d.payload.length }
  let (addrHeader,rawAddr) := setAddr h.toAddrHeader d.addr
  let h := { h with toAddrHeader := addrHeader }
  (h,h.writeTo rawAddr ++ d.payload)

def frames : UDPHeader → List Datagram → Bytes
  | _, [] => []
  | h, d :: ds =>
    let (h,w) := frame h d
    w ++ frames h ds

/-- One call of `ReadFrom` with a slice of length `p`. -/
def UDPConn.readFrom (p : ℕ) (u : UDPConn) : Reading (Datagram × UDPConn) := do
  let (h,addrPort,rd) ← UDPHeader.readFrom u.reader
  let rd := if rd.size < h.length.toNat then rd.newReaderSize (rd.size*2) else rd
  if p < h.length.toNat then .panic .sliceBounds
  else do
    let (payload,rd) ← readFull h.length.toNat rd
    return (⟨addrPort,payload⟩,⟨rd,h⟩)

def UDPConn.readMany (p : ℕ) : ℕ → UDPConn → Reading (List Datagram × UDPConn)
  | 0, u => .ok ([],u)
  | n+1, u => do
    let (d,u) ← u.readFrom p
    let (ds,u) ← readMany p n u
    return (d :: ds,u)

section
variable {p : ℕ} {h : UDPHeader} {u : UDPConn}

/-- A frame is read back whole and nothing behind it is touched. -/
theorem readFrom_frame {d : Datagram} {rest : Bytes} (hlen : d.payload.length < 2^32) (hp : d.payload.length ≤ p)
    (hpending : u.reader.pending = (frame h d).2 ++ rest) :
    ∃ u', u.readFrom p = .ok (d,u') ∧ u'.reader.pending = rest := by
  have hlength : (UInt32.ofNat d.payload.length).toNat = d.payload.length := UInt32.toNat_ofNat_of_lt' hlen
  rw [frame] at hpending
  dsimp only at hpending
  rw [List.append_assoc] at hpending
  obtain ⟨rd₁,hread₁,hrest₁⟩ := readFrom_writeTo rfl hpending
  -- A larger reader on top still has the same octets to come.
  have hgrown : (if rd₁.size < d.payload.length then rd₁.newReaderSize (rd₁.size*2) else rd₁).pending =
      d.payload ++ rest := by
    split
    · rw [Reader.pending_newReaderSize,hrest₁]
    · exact hrest₁
  obtain ⟨rd₂,hread₂,hrest₂⟩ := readFull_split rfl hgrown
  refine ⟨⟨rd₂,(frame h d).1⟩,?_,hrest₂⟩
  rw [UDPConn.readFrom,hread₁,Outcome.ok_bind]
  dsimp only
  rw [hlength,if_neg (Nat.not_lt.mpr hp),hread₂]
  rfl

theorem readMany_frames {ds : List Datagram} {rest : Bytes} (hlen : ∀ d ∈ ds, d.payload.length < 2^32)
    (hp : ∀ d ∈ ds, d.payload.length ≤ p) (hpending : u.reader.pending = frames h ds ++ rest) :
    ∃ u', u.readMany p ds.length = .ok (ds,u') ∧ u'.reader.pending = rest := by
  induction ds generalizing h u with
  | nil => exact ⟨u,rfl,hpending⟩
  | cons d ds ih =>
    rw [frames] at hpending
    dsimp only at hpending
    rw [List.append_assoc] at hpending
    obtain ⟨u₁,hread,hrest₁⟩ := readFrom_frame (hlen d List.mem_cons_self) (hp d List.mem_cons_self) hpending
    obtain ⟨u₂,hmany,hrest₂⟩ := ih (fun d hd => hlen d (List.mem_cons_of_mem _ hd))
      (fun d hd => hp d (List.mem_cons_of_mem _ hd)) hrest₁
    refine ⟨u₂,?_,hrest₂⟩
    rw [List.length_cons,UDPConn.readMany,hread,Outcome.ok_bind]
    dsimp only
    rw [hmany]
    rfl

theorem readFrom_eof (hpending : u.reader.pending = []) : u.readFrom p = .error (.read .eof) := by
  have hread : u.reader.readFull udpHeaderSize = .error .eof := Reader.readFull_eof (by decide) hpending
  rw [UDPConn.readFrom,UDPHeader.readFrom,readFull,hread]
  rfl

end

/-- The datagrams that were framed are read back in order, from any reader and in any chunks, and the
stream ends behind the last of them. -/
theorem framing_preserves_datagrams (ds : List Datagram) (h : UDPHeader) (p : ℕ) (u : UDPConn)
    (hlen : ∀ d ∈ ds, d.payload.length < 2^32) (hp : ∀ d ∈ ds, d.payload.length ≤ p)
    (hpending : u.reader.pending = frames h ds) :
    ∃ u', u.readMany p ds.length = .ok (ds,u') ∧ u'.reader.pending = [] ∧
      u'.readFrom p = .error (.read .eof) := by
  have hframes : u.reader.pending = frames h ds ++ [] := by rw [hpending,List.append_nil]
  obtain ⟨u',hread,hrest⟩ := readMany_frames hlen hp hframes
  exact ⟨u',hread,hrest,readFrom_eof hrest⟩

/-- One IPv4 datagram that fits the smallest buffer, and one from an address mapped into IPv6 that does not. -/
def mixedSample : List Datagram :=
  [⟨⟨.v4 ⟨#[10,0,0,1],rfl⟩,6881⟩,[1,2,3]⟩,
    ⟨⟨.v6 ⟨#[0,0,0,0,0,0,0,0,0,0,255,255,10,0,0,1],rfl⟩,0⟩,List.replicate 40 7⟩]

theorem mixedSample_preserved :
    ∃ u', (newUDPConn [frames ⟨⟨9,9,9⟩,0,9⟩ mixedSample] 0).readMany 65536 2 = .ok (mixedSample,u') ∧
      u'.reader.pending = [] := by
  obtain ⟨u',hread,hrest,-⟩ := framing_preserves_datagrams mixedSample ⟨⟨9,9,9⟩,0,9⟩ 65536
    (newUDPConn [frames ⟨⟨9,9,9⟩,0,9⟩ mixedSample] 0) (by decide) (by decide)
    (by simp [newUDPConn,Reader.pending])
  exact ⟨u',hread,hrest⟩

end DhtOcean.Proxy
