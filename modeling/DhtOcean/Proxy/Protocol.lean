import DhtOcean.Foundation.Net
import DhtOcean.Foundation.Outcome
import DhtOcean.Foundation.Reader

/-! # Headers of proxied datagrams

A datagram travels behind a header of nine octets and its address. The header
holds the lengths of both.
-/
namespace DhtOcean.Proxy
open Foundation

def addrTypeIPv4 : UInt8 := 0x01
def addrTypeIPv6 : UInt8 := 0x02

structure AddrHeader where
  addrType : UInt8
  addrLen : UInt8
  port : UInt16
  deriving DecidableEq, Repr

structure UDPHeader extends AddrHeader where
  version : UInt8
  length : UInt32
  deriving DecidableEq, Repr

inductive ProtocolError
  | read (e : ReadError)
  | unsupportedAddrType
  | invalidAddrLen
  | illegalAddr
  deriving DecidableEq, Repr

abbrev Reading := Outcome ProtocolError

/-- `Addr.AsSlice`. -/
def asSlice : IpAddr → Bytes
  | .v4 octets => octets.toList
  | .v6 octets => octets.toList

/-- `netip.AddrFromSlice`, by length alone. -/
def addrFromSlice (b : Bytes) : Option IpAddr :=
  if h : b.length = 4 then some (.v4 ⟨b.toArray,h⟩)
  else if h : b.length = 16 then some (.v6 ⟨b.toArray,h⟩)
  else none

/-- An address mapped from IPv4 counts as IPv6. -/
def is6 : IpAddr → Bool
  | .v4 _ => false
  | .v6 _ => true

/-- The header for the address, and the octets of the address. -/
def setAddr (h : AddrHeader) (addr : AddrPort) : AddrHeader × Bytes :=
  let h :=
    if is6 addr.ip then { h with addrType := addrTypeIPv6, port := addr.port, addrLen := 16 }
    else { h with addrType := addrTypeIPv4, port := addr.port, addrLen := 4 }
  let ip := asSlice addr.ip
  ({ h with addrLen := UInt8.ofNat ip.length },ip)

/-- `binary.Write` of the header. -/
def UDPHeader.encode (h : UDPHeader) : Bytes :=
  [h.version,h.addrType,h.addrLen] ++ beBytes 2 h.port.toNat ++ beBytes 4 h.length.toNat

/-- `binary.Size(UDPHeader{})`. -/
def udpHeaderSize : ℕ := 9

/-- `binary.Read` of the header, from nine octets. -/
def UDPHeader.decode (b : Bytes) : UDPHeader where
  version := b.getD 0 0
  addrType := b.getD 1 0
  addrLen := b.getD 2 0
  port := UInt16.ofNat (beValue ((b.drop 3).take 2))
  length := UInt32.ofNat (beValue ((b.drop 5).take 4))

/-- What `UDPHeader.WriteTo` writes. -/
def UDPHeader.writeTo (h : UDPHeader) (addr : Bytes) : Bytes := h.encode ++ addr

def readFull (n : ℕ) (rd : Reader UInt8) : Reading (Bytes × Reader UInt8) :=
  (Outcome.ofExcept (rd.readFull n)).mapError .read

def readAddrPort (h : AddrHeader) (rd : Reader UInt8) : Reading (AddrPort × Reader UInt8) :=
  if h.addrType ≠ addrTypeIPv4 ∧ h.addrType ≠ addrTypeIPv6 then .error .unsupportedAddrType
  else do
    let (rawAddr,rd) ← readFull h.addrLen.toNat rd
    if rawAddr.length ≠ h.addrLen.toNat then .error .invalidAddrLen
    else
      match addrFromSlice rawAddr with
      | none => .error .illegalAddr
      | some addr => return (⟨addr,h.port⟩,rd)

/-- The header that was read takes the place of the old one in every field. -/
def UDPHeader.readFrom (rd : Reader UInt8) : Reading (UDPHeader × AddrPort × Reader UInt8) := do
  let (raw,rd) ← readFull udpHeaderSize rd
  let h := UDPHeader.decode raw
  let (addrPort,rd) ← readAddrPort h.toAddrHeader rd
  return (h,addrPort,rd)

theorem length_asSlice (ip : IpAddr) : (asSlice ip).length = if is6 ip then 16 else 4 := by
  cases ip <;> simp [asSlice,is6]

theorem addrFromSlice_asSlice (ip : IpAddr) : addrFromSlice (asSlice ip) = some ip := by
  cases ip <;> simp [addrFromSlice,asSlice,Vector.toList]

@[simp] theorem UDPHeader.length_encode (h : UDPHeader) : h.encode.length = udpHeaderSize := by
  simp [encode,udpHeaderSize]

theorem UDPHeader.decode_encode (h : UDPHeader) : UDPHeader.decode h.encode = h := by
  have hport : beValue (beBytes 2 h.port.toNat) = h.port.toNat := beValue_beBytes h.port.toNat_lt
  have hlength : beValue (beBytes 4 h.length.toNat) = h.length.toNat := beValue_beBytes h.length.toNat_lt
  have hfront : ((h.encode.drop 3).take 2) = beBytes 2 h.port.toNat := by
    simp only [encode,List.cons_append,List.nil_append,List.drop_succ_cons,List.drop_zero]
    exact List.take_left' (length_beBytes _ _)
  have hback : h.encode.drop 5 = beBytes 4 h.length.toNat := by
    simp only [encode,List.cons_append,List.nil_append,List.drop_succ_cons]
    exact List.drop_left' (length_beBytes _ _)
  rw [decode,hfront,hback,List.take_of_length_le (by simp),hport,hlength]
  simp [encode]

theorem UDPHeader.encode_inj {h h' : UDPHeader} : h.encode = h'.encode ↔ h = h' := by
  constructor
  · intro he
    rw [← h.decode_encode,he,h'.decode_encode]
  · rintro rfl
    rfl

/-- The next octets of the stream are read whole. -/
theorem readFull_split {n : ℕ} {rd : Reader UInt8} {want rest : Bytes} (hn : want.length = n)
    (hpending : rd.pending = want ++ rest) :
    ∃ rd', readFull n rd = .ok (want,rd') ∧ rd'.pending = rest := by
  obtain ⟨rd',hread,hrest⟩ := Reader.readFull_split hn hpending
  exact ⟨rd',by rw [readFull,hread]; rfl,hrest⟩

theorem setAddr_addrType (h : AddrHeader) (addr : AddrPort) :
    (setAddr h addr).1.addrType = addrTypeIPv4 ∨ (setAddr h addr).1.addrType = addrTypeIPv6 := by
  unfold setAddr
  dsimp only
  split
  · exact .inr rfl
  · exact .inl rfl

theorem setAddr_port (h : AddrHeader) (addr : AddrPort) : (setAddr h addr).1.port = addr.port := by
  unfold setAddr
  dsimp only
  split <;> rfl

theorem setAddr_addrLen (h : AddrHeader) (addr : AddrPort) :
    (setAddr h addr).1.addrLen.toNat = (setAddr h addr).2.length := by
  have hlen : (asSlice addr.ip).length < 256 := by
    rw [length_asSlice]
    split <;> omega
  simp only [setAddr,UInt8.toNat_ofNat']
  exact Nat.mod_eq_of_lt hlen

theorem readFull_eq_ok {n : ℕ} {rd rd' : Reader UInt8} {out : Bytes} (h : readFull n rd = .ok (out,rd')) :
    out.length = n ∧ rd.pending = out ++ rd'.pending :=
  Reader.readFull_eq_ok (Outcome.ofExcept_eq_ok.mp (Outcome.mapError_eq_ok.mp h))

theorem readFull_short {n : ℕ} {rd : Reader UInt8} (hshort : rd.pending.length < n) :
    ∃ e, readFull n rd = .error (.read e) := by
  obtain ⟨e,he⟩ := Reader.readFull_short hshort
  exact ⟨e,by rw [readFull,he]; rfl⟩

theorem readFull_returns (n : ℕ) (rd : Reader UInt8) : (readFull n rd).Returns := by
  unfold readFull
  cases rd.readFull n with
  | ok r => exact .inl ⟨r,rfl⟩
  | error e => exact .inr ⟨.read e,rfl⟩

theorem readAddrPort_returns (h : AddrHeader) (rd : Reader UInt8) : (readAddrPort h rd).Returns := by
  unfold readAddrPort
  split
  · exact .inr ⟨_,rfl⟩
  · refine Outcome.returns_bind (readFull_returns _ _) fun r => ?_
    dsimp only
    split
    · exact .inr ⟨_,rfl⟩
    · split
      · exact .inr ⟨_,rfl⟩
      · exact .inl ⟨_,rfl⟩

theorem readFrom_returns (rd : Reader UInt8) : (UDPHeader.readFrom rd).Returns := by
  refine Outcome.returns_bind (readFull_returns _ _) fun r => ?_
  exact Outcome.returns_bind (readAddrPort_returns _ _) fun _ => .inl ⟨_,rfl⟩

theorem asSlice_addrFromSlice {b : Bytes} {ip : IpAddr} (h : addrFromSlice b = some ip) : asSlice ip = b := by
  unfold addrFromSlice at h
  split at h
  · cases h
    rfl
  · split at h
    · cases h
      rfl
    · cases h

theorem UDPHeader.encode_decode {b : Bytes} (hb : b.length = udpHeaderSize) : (UDPHeader.decode b).encode = b := by
  obtain ⟨v,t,l,p₁,p₂,n₁,n₂,n₃,n₄,rfl⟩ : ∃ v t l p₁ p₂ n₁ n₂ n₃ n₄, b = [v,t,l,p₁,p₂,n₁,n₂,n₃,n₄] := by
    match b, hb with
    | [v,t,l,p₁,p₂,n₁,n₂,n₃,n₄], _ => exact ⟨v,t,l,p₁,p₂,n₁,n₂,n₃,n₄,rfl⟩
  have hport₂ : beValue [p₁,p₂] < 2^16 := by simpa using beValue_lt [p₁,p₂]
  have hlength₄ : beValue [n₁,n₂,n₃,n₄] < 2^32 := by simpa using beValue_lt [n₁,n₂,n₃,n₄]
  have hport : (UInt16.ofNat (beValue [p₁,p₂])).toNat = beValue [p₁,p₂] := UInt16.toNat_ofNat_of_lt' hport₂
  have hlength : (UInt32.ofNat (beValue [n₁,n₂,n₃,n₄])).toNat = beValue [n₁,n₂,n₃,n₄] :=
    UInt32.toNat_ofNat_of_lt' hlength₄
  have hportBytes := beBytes_beValue [p₁,p₂]
  have hlengthBytes := beBytes_beValue [n₁,n₂,n₃,n₄]
  simp only [List.length_cons,List.length_nil] at hportBytes hlengthBytes
  simp only [encode,decode,List.drop_succ_cons,List.drop_zero,List.take_succ_cons,List.take_zero,hport,hlength,
    hportBytes,hlengthBytes]
  rfl

/-- The header has one of the two types and the length of the address. -/
structure Announces (h : AddrHeader) (ip : IpAddr) : Prop where
  addrType : h.addrType = addrTypeIPv4 ∨ h.addrType = addrTypeIPv6
  addrLen : h.addrLen.toNat = (asSlice ip).length

theorem Announces.supported {h : AddrHeader} {ip : IpAddr} (hip : Announces h ip) :
    ¬ (h.addrType ≠ addrTypeIPv4 ∧ h.addrType ≠ addrTypeIPv6) := by
  rintro ⟨h₄,h₆⟩
  rcases hip.addrType with ht | ht
  · exact h₄ ht
  · exact h₆ ht

theorem announces_setAddr (old : AddrHeader) (addr : AddrPort) : Announces (setAddr old addr).1 addr.ip :=
  ⟨setAddr_addrType old addr,setAddr_addrLen old addr⟩

/-- A header and the address that it announces are read as they are. -/
theorem readFrom_announced {h : UDPHeader} {ip : IpAddr} {rd : Reader UInt8} {rest : Bytes}
    (hip : Announces h.toAddrHeader ip) (hpending : rd.pending = h.writeTo (asSlice ip) ++ rest) :
    ∃ rd', UDPHeader.readFrom rd = .ok (h,⟨ip,h.port⟩,rd') ∧ rd'.pending = rest := by
  rw [UDPHeader.writeTo,List.append_assoc] at hpending
  obtain ⟨rd₁,hread₁,hrest₁⟩ := readFull_split h.length_encode hpending
  obtain ⟨rd₂,hread₂,hrest₂⟩ := readFull_split hip.addrLen.symm hrest₁
  refine ⟨rd₂,?_,hrest₂⟩
  have haddr : readAddrPort h.toAddrHeader rd₁ = .ok (⟨ip,h.port⟩,rd₂) := by
    rw [readAddrPort,if_neg hip.supported,hread₂]
    simp [hip.addrLen,addrFromSlice_asSlice]
  rw [UDPHeader.readFrom,hread₁,Outcome.ok_bind]
  dsimp only
  rw [h.decode_encode,haddr]
  rfl

/-- A header and the address it was set for are read back as they were written. -/
theorem readFrom_writeTo {h : UDPHeader} {old : AddrHeader} {addr : AddrPort} {rd : Reader UInt8} {rest : Bytes}
    (hset : h.toAddrHeader = (setAddr old addr).1)
    (hpending : rd.pending = h.writeTo (setAddr old addr).2 ++ rest) :
    ∃ rd', UDPHeader.readFrom rd = .ok (h,addr,rd') ∧ rd'.pending = rest := by
  have hip : Announces h.toAddrHeader addr.ip := hset ▸ announces_setAddr old addr
  have hport : h.port = addr.port := by rw [hset,setAddr_port]
  obtain ⟨rd',hread,hrest⟩ := readFrom_announced hip hpending
  rw [hport] at hread
  exact ⟨rd',hread,hrest⟩

theorem readAddrPort_eq_ok {h : AddrHeader} {addr : AddrPort} {rd rd' : Reader UInt8}
    (hread : readAddrPort h rd = .ok (addr,rd')) :
    Announces h addr.ip ∧ addr.port = h.port ∧ rd.pending = asSlice addr.ip ++ rd'.pending := by
  unfold readAddrPort at hread
  split at hread
  · cases hread
  · rename_i htype
    have htype : h.addrType = addrTypeIPv4 ∨ h.addrType = addrTypeIPv6 := by
      by_contra hne
      exact htype (not_or.mp hne)
    obtain ⟨⟨rawAddr,rd₁⟩,hraw,hread⟩ := Outcome.bind_eq_ok.mp hread
    obtain ⟨hlen,hpending⟩ := readFull_eq_ok hraw
    dsimp only at hread
    split at hread
    · cases hread
    · split at hread
      · cases hread
      · rename_i ip hip
        cases hread
        have hslice := asSlice_addrFromSlice hip
        exact ⟨⟨htype,by rw [hslice,hlen]⟩,rfl,by rw [hslice,hpending]⟩

/-- What was read is a header and the octets of the address that it announces. -/
theorem readFrom_eq_ok {h : UDPHeader} {addr : AddrPort} {rd rd' : Reader UInt8}
    (hread : UDPHeader.readFrom rd = .ok (h,addr,rd')) :
    Announces h.toAddrHeader addr.ip ∧ addr.port = h.port ∧
      rd.pending = h.writeTo (asSlice addr.ip) ++ rd'.pending := by
  unfold UDPHeader.readFrom at hread
  obtain ⟨⟨raw,rd₁⟩,hraw,hread⟩ := Outcome.bind_eq_ok.mp hread
  obtain ⟨hlen,hpending⟩ := readFull_eq_ok hraw
  dsimp only at hread
  obtain ⟨⟨addr',rd₂⟩,haddr,hread⟩ := Outcome.bind_eq_ok.mp hread
  cases hread
  obtain ⟨hip,hport,hpending'⟩ := readAddrPort_eq_ok haddr
  refine ⟨hip,hport,?_⟩
  rw [UDPHeader.writeTo,UDPHeader.encode_decode hlen,List.append_assoc,← hpending',hpending]

/-- No front of a header and its address passes for a header and an address. -/
theorem readFrom_short {h : UDPHeader} {ip : IpAddr} {rd : Reader UInt8} {more : Bytes}
    (hip : Announces h.toAddrHeader ip) (hmore : more ≠ [])
    (hfront : rd.pending ++ more = h.writeTo (asSlice ip)) : ∃ e, UDPHeader.readFrom rd = .error e := by
  rcases readFrom_returns rd with ⟨⟨h',addr,rd'⟩,hread⟩ | herror
  · obtain ⟨hip',-,hpending⟩ := readFrom_eq_ok hread
    rw [hpending,UDPHeader.writeTo,UDPHeader.writeTo,List.append_assoc,List.append_assoc] at hfront
    obtain ⟨hheader,htail⟩ := List.append_inj hfront (by rw [h.length_encode,h'.length_encode])
    obtain rfl := UDPHeader.encode_inj.mp hheader
    have hlen := congrArg List.length htail
    have hpos := List.length_pos_iff.mpr hmore
    simp only [List.length_append,← hip.addrLen,← hip'.addrLen] at hlen
    omega
  · exact herror

section Reencode

/-- `SetAddr` and `WriteTo` of a fresh header with the version and the length of another one. -/
def reencode (h : UDPHeader) (addr : AddrPort) : Bytes :=
  let fresh : UDPHeader := ⟨⟨0,0,0⟩,h.version,h.length⟩
  let (addrHeader,rawAddr) := setAddr fresh.toAddrHeader addr
  UDPHeader.writeTo { fresh with toAddrHeader := addrHeader } rawAddr

/-- The type in the header is that of addresses of this length. -/
def TypeFitsLength (h : AddrHeader) : Prop :=
  (h.addrType = addrTypeIPv4 ∧ h.addrLen = 4) ∨ (h.addrType = addrTypeIPv6 ∧ h.addrLen = 16)

/-- Of the three fields only the type can differ from those that `SetAddr` sets. -/
theorem Announces.eq_setAddr_iff {h old : AddrHeader} {addr : AddrPort} (hip : Announces h addr.ip)
    (hport : addr.port = h.port) : h = (setAddr old addr).1 ↔ TypeFitsLength h := by
  obtain ⟨addrType,addrLen,port⟩ := h
  have hlen : addrLen = (setAddr old addr).1.addrLen := by
    apply UInt8.toNat_inj.mp
    exact hip.addrLen.trans (setAddr_addrLen old addr).symm
  obtain rfl : addr.port = port := hport
  obtain ⟨ip,port⟩ := addr
  cases ip with
  | v4 octets =>
    obtain rfl : addrLen = 4 := by simpa [setAddr,is6,asSlice] using hlen
    simp [setAddr,is6,asSlice,TypeFitsLength]
  | v6 octets =>
    obtain rfl : addrLen = 16 := by simpa [setAddr,is6,asSlice] using hlen
    simp [setAddr,is6,asSlice,TypeFitsLength]

/-- What was read is written again, octet by octet, exactly if its type fits its length. -/
theorem reencodes_iff_typeFitsLength {rd rd' : Reader UInt8} {h : UDPHeader} {addr : AddrPort}
    (hread : UDPHeader.readFrom rd = .ok (h,addr,rd')) :
    rd.pending = reencode h addr ++ rd'.pending ↔ TypeFitsLength h.toAddrHeader := by
  obtain ⟨hip,hport,hpending⟩ := readFrom_eq_ok hread
  have hheader : h = { h with toAddrHeader := (setAddr ⟨0,0,0⟩ addr).1 } ↔
      h.toAddrHeader = (setAddr ⟨0,0,0⟩ addr).1 := by
    constructor
    · intro he
      rw [he]
    · intro he
      rw [← he]
  calc rd.pending = reencode h addr ++ rd'.pending
    _ ↔ h.writeTo (asSlice addr.ip) = reencode h addr := by rw [hpending,List.append_left_inj]
    _ ↔ h.encode = UDPHeader.encode { h with toAddrHeader := (setAddr ⟨0,0,0⟩ addr).1 } :=
      List.append_left_inj _
    _ ↔ TypeFitsLength h.toAddrHeader := by
      rw [UDPHeader.encode_inj,hheader,hip.eq_setAddr_iff hport]

/-- Sixteen octets under the type of IPv4. -/
def contradictoryHeader : Bytes := [0,1,16,26,225,0,0,0,0] ++ List.replicate 16 0

/-- A header whose type contradicts its length is read, and another one is written for its address. -/
theorem contradictoryHeader_not_reencoded :
    (UDPHeader.readFrom (.source [contradictoryHeader])).okAnd (fun r =>
      r.1.addrType = addrTypeIPv4 && r.1.addrLen = 16 && r.2.2.pending.isEmpty &&
        reencode r.1 r.2.1 != contradictoryHeader) = true := by
  decide +kernel

theorem plainHeader_reencoded :
    ∃ h addr rd', UDPHeader.readFrom (.source [[0,1,4,26,225,0,0,0,3,127,0,0,1]]) = .ok (h,addr,rd') ∧
      [0,1,4,26,225,0,0,0,3,127,0,0,1] = reencode h addr ++ rd'.pending := by
  have hpending : (Reader.source [[0,1,4,26,225,0,0,0,3,127,0,0,1]]).pending =
      UDPHeader.writeTo ⟨⟨1,4,6881⟩,0,3⟩ (asSlice (.v4 ⟨#[127,0,0,1],rfl⟩)) ++ [] := by
    decide +kernel
  obtain ⟨rd',hread,-⟩ := readFrom_announced ⟨.inl rfl,rfl⟩ hpending
  exact ⟨_,_,rd',hread,(reencodes_iff_typeFitsLength hread).mpr (.inl ⟨rfl,rfl⟩)⟩

end Reencode

end DhtOcean.Proxy
