import DhtOcean.Foundation.Deframing
import DhtOcean.Foundation.HostPort
import DhtOcean.Proxy.Relay

/-! # The tunnel between client and server

The client opens a connection with two handshakes and frames its datagrams behind
them. The server takes the handshakes off the connection itself and reads the
frames through a buffer. However the octets are held back, split and delayed, each
direction is a queue of datagrams.
-/
namespace DhtOcean.Proxy
open Foundation

section Handshake

def modeUDP : UInt8 := 0x01

structure Handshake where
  version : UInt8
  mode : UInt8
  deriving DecidableEq, Repr

structure UDPHandshake where
  port : UInt16
  deriving DecidableEq, Repr

def Handshake.writeTo (h : Handshake) : Bytes := [h.version,h.mode]

def Handshake.readFrom (rd : Reader UInt8) : Reading (Handshake × Reader UInt8) := do
  let (raw,rd) ← readFull 2 rd
  return (⟨raw.getD 0 0,raw.getD 1 0⟩,rd)

def UDPHandshake.encode (h : UDPHandshake) : Bytes := beBytes 2 h.port.toNat

def UDPHandshake.read (rd : Reader UInt8) : Reading (UDPHandshake × Reader UInt8) := do
  let (raw,rd) ← readFull 2 rd
  return (⟨UInt16.ofNat (beValue raw)⟩,rd)

theorem Handshake.readFrom_writeTo {h : Handshake} {rd : Reader UInt8} {rest : Bytes}
    (hpending : rd.pending = h.writeTo ++ rest) :
    ∃ rd', Handshake.readFrom rd = .ok (h,rd') ∧ rd'.pending = rest := by
  obtain ⟨rd',hread,hrest⟩ := readFull_split rfl hpending
  refine ⟨rd',?_,hrest⟩
  rw [Handshake.readFrom]
  rw [show h.writeTo.length = 2 from rfl] at hread
  rw [hread]
  rfl

theorem UDPHandshake.read_encode {h : UDPHandshake} {rd : Reader UInt8} {rest : Bytes}
    (hpending : rd.pending = h.encode ++ rest) :
    ∃ rd', UDPHandshake.read rd = .ok (h,rd') ∧ rd'.pending = rest := by
  obtain ⟨rd',hread,hrest⟩ := readFull_split (length_beBytes 2 h.port.toNat) hpending
  have hport : beValue (beBytes 2 h.port.toNat) = h.port.toNat := beValue_beBytes h.port.toNat_lt
  refine ⟨rd',?_,hrest⟩
  rw [UDPHandshake.read,hread,Outcome.ok_bind]
  dsimp only
  rw [hport,UInt16.ofNat_toNat]
  rfl

end Handshake

section Client

/-- The arguments of `WriteTo`. -/
structure Call where
  p : Bytes
  addr : AddrPort

/-- `ProxyClient.ListenUDP` behind the dialling, with the writing end of `NewUDPConn`. -/
def listenUDP (conn : Sink UInt8) (lport : UInt16) (bufSize : ℤ) : Option Outgoing := do
  let conn ← conn.write (Handshake.writeTo ⟨0,modeUDP⟩)
  let conn ← conn.write (UDPHandshake.encode ⟨lport⟩)
  return ⟨⟨⟨0,0,0⟩,0,0⟩,Writer.newWriterSize conn bufSize⟩

/-- `UDPConn.WriteTo`, which takes the text of the address apart. -/
def writeTo (u : Outgoing) (c : Call) : Option Outgoing := do
  let addrPort ← parseAddrPort c.addr.text
  u.send ⟨addrPort,c.p⟩

/-- The datagram that a call asks for: a mapped address goes out as the IPv4 address that it stands for. -/
def Call.datagram (c : Call) : Datagram := ⟨⟨c.addr.ip.unmap,c.addr.port⟩,c.p⟩

theorem writeTo_eq (u : Outgoing) (c : Call) : writeTo u c = u.send c.datagram := by
  rw [writeTo,parseAddrPort_text]
  rfl

/-- The octets in front of the first frame. -/
def preamble (lport : UInt16) : Bytes := Handshake.writeTo ⟨0,modeUDP⟩ ++ UDPHandshake.encode ⟨lport⟩

theorem length_preamble (lport : UInt16) : (preamble lport).length = 4 := by
  simp [preamble,Handshake.writeTo,UDPHandshake.encode]

theorem listenUDP_spec {conn : Sink UInt8} {lport : UInt16} {bufSize : ℤ} {u : Outgoing}
    (h : listenUDP conn lport bufSize = some u) :
    u.header = ⟨⟨0,0,0⟩,0,0⟩ ∧ u.writer.buf = [] ∧ u.writer.sink.out = conn.out ++ preamble lport := by
  obtain ⟨conn₁,h₁,h⟩ := Option.bind_eq_some_iff.mp h
  obtain ⟨conn₂,h₂,h⟩ := Option.bind_eq_some_iff.mp h
  cases h
  refine ⟨rfl,rfl,?_⟩
  have hout : conn₂.out = conn.out ++ preamble lport := by
    rw [Sink.write_out h₂,Sink.write_out h₁,List.append_assoc,preamble]
  exact hout

end Client

section Server

inductive ServeError
  | handshake (e : ProtocolError)
  | unknownMode
  | udpHandshake (e : ProtocolError)
  | socket
  deriving DecidableEq, Repr

/-- One connection of `ProxyServer.listen` and `UDPHandler.Run`, with the port of its socket and what
`send` makes of the rest of the stream. -/
def serve (opens : UInt16 → Bool) (accepts : Datagram → Bool) (bufSize : ℕ) (conn : Reader UInt8) :
    Outcome ServeError (UInt16 × Sending × Outcome SendError Unit) := do
  let (handshake,conn) ← (Handshake.readFrom conn).mapError .handshake
  if handshake.mode ≠ modeUDP then .error .unknownMode
  else do
    let (handshake,conn) ← (UDPHandshake.read conn).mapError .udpHandshake
    if opens handshake.port then return (handshake.port,send accepts (conn.newReaderSize bufSize))
    else .error .socket

/-- The handshakes say which port to open, and the stream behind them is what `send` reads. -/
theorem serve_preamble {opens : UInt16 → Bool} {lport : UInt16} {conn : Reader UInt8} {rest : Bytes}
    (hopens : opens lport = true) (accepts : Datagram → Bool) (bufSize : ℕ)
    (hpending : conn.pending = preamble lport ++ rest) :
    ∃ rd, rd.pending = rest ∧ serve opens accepts bufSize conn = .ok (lport,send accepts rd) := by
  rw [preamble,List.append_assoc] at hpending
  obtain ⟨rd₁,hread₁,hrest₁⟩ := Handshake.readFrom_writeTo hpending
  obtain ⟨rd₂,hread₂,hrest₂⟩ := UDPHandshake.read_encode hrest₁
  refine ⟨rd₂.newReaderSize bufSize,by rw [Reader.pending_newReaderSize,hrest₂],?_⟩
  rw [serve,hread₁,Outcome.mapError_ok,Outcome.ok_bind]
  dsimp only
  rw [if_neg (by simp),hread₂,Outcome.mapError_ok,Outcome.ok_bind]
  dsimp only
  rw [if_pos hopens]
  rfl

/-- Before both handshakes have arrived there is no handler, and no socket. -/
theorem serve_short {opens : UInt16 → Bool} {accepts : Datagram → Bool} {bufSize : ℕ} {conn : Reader UInt8}
    (hshort : conn.pending.length < 4) : ∃ e, serve opens accepts bufSize conn = .error e := by
  unfold serve Handshake.readFrom
  cases h₁ : conn.readFull 2 with
  | error e => exact ⟨.handshake (.read e),by rw [readFull,h₁]; rfl⟩
  | ok r =>
    obtain ⟨raw,rd⟩ := r
    obtain ⟨hlen,hpending⟩ := Reader.readFull_eq_ok h₁
    have hrest : rd.pending.length < 2 := by
      rw [hpending,List.length_append,hlen] at hshort
      omega
    obtain ⟨e,h₂⟩ := Reader.readFull_short hrest
    rw [readFull,h₁]
    simp only [Outcome.ofExcept,Outcome.mapError_ok,Outcome.ok_bind,Outcome.pure_eq]
    by_cases hmode : raw.getD 1 0 = modeUDP
    · refine ⟨.udpHandshake (.read e),?_⟩
      rw [if_neg (not_not_intro hmode),UDPHandshake.read,readFull,h₂]
      rfl
    · exact ⟨.unknownMode,if_pos hmode⟩

end Server

section Frames

/-- A frame behind a header of that version. Nothing else of an earlier header is left in it. -/
def frameOctets (version : UInt8) (d : Datagram) : Bytes := (frame ⟨⟨0,0,0⟩,version,0⟩ d).2

def frameLength (d : Datagram) : ℕ := udpHeaderSize + (asSlice d.addr.ip).length + d.payload.length

theorem setAddr_eq (h h' : AddrHeader) (addr : AddrPort) : setAddr h addr = setAddr h' addr := by
  unfold setAddr
  cases is6 addr.ip <;> rfl

theorem frame_octets (h : UDPHeader) (d : Datagram) : (frame h d).2 = frameOctets h.version d := by
  rw [frameOctets,frame,frame]
  dsimp only
  rw [setAddr_eq h.toAddrHeader ⟨0,0,0⟩ d.addr]

theorem frames_octets (h : UDPHeader) (ds : List Datagram) :
    frames h ds = (ds.map (frameOctets h.version)).flatten := by
  induction ds generalizing h with
  | nil => rfl
  | cons d ds ih =>
    have hversion : (frame h d).1.version = h.version := rfl
    have hrest := ih (frame h d).1
    rw [hversion] at hrest
    rw [List.map_cons,List.flatten_cons,← frame_octets h d,← hrest]
    rfl

theorem length_frameOctets (version : UInt8) (d : Datagram) : (frameOctets version d).length = frameLength d := by
  rw [frameOctets,frame_eq,List.length_append,List.length_append,UDPHeader.length_encode,frameLength]

theorem frameLength_pos (d : Datagram) : 0 < frameLength d := by
  rw [frameLength,udpHeaderSize]
  omega

theorem length_frames (h : UDPHeader) (ds : List Datagram) : (frames h ds).length = (ds.map frameLength).sum := by
  rw [frames_octets,List.length_flatten,List.map_map]
  congr 1
  exact List.map_congr_left fun d _ => length_frameOctets h.version d

/-- The frame of a datagram as one that a client may write. -/
def clientFrame (version : UInt8) (d : Datagram) (hlen : d.payload.length < 2^32) : ClientFrame where
  header := (frame ⟨⟨0,0,0⟩,version,0⟩ d).1
  ip := d.addr.ip
  payload := d.payload
  announces := announces_setAddr ⟨0,0,0⟩ d.addr
  length := UInt32.toNat_ofNat_of_lt' hlen

theorem clientFrame_datagram (version : UInt8) (d : Datagram) (hlen : d.payload.length < 2^32) :
    (clientFrame version d hlen).datagram = d := by
  have hport : (frame ⟨⟨0,0,0⟩,version,0⟩ d).1.port = d.addr.port := setAddr_port ⟨0,0,0⟩ d.addr
  rw [ClientFrame.datagram,clientFrame,hport]

end Frames

section Loops

/-- What `send` needs of the datagrams to come: their lengths fit its buffer and the socket takes them. -/
structure Suits (accepts : Datagram → Bool) (pipeBuf : ℕ) (ds : List Datagram) : Prop where
  fits : Fits pipeBuf (ds.map (·.payload.length))
  length : ∀ d ∈ ds, d.payload.length < 2^32
  accepted : ∀ d ∈ ds, accepts d = true

theorem fits_of_append {pipeBuf : ℕ} {ns ns' : List ℕ} (h : Fits pipeBuf (ns ++ ns')) : Fits pipeBuf ns := by
  induction ns generalizing pipeBuf with
  | nil => trivial
  | cons n ns ih => exact ⟨h.1,ih h.2⟩

theorem Suits.of_append {accepts : Datagram → Bool} {pipeBuf : ℕ} {ds ds' : List Datagram}
    (h : Suits accepts pipeBuf (ds ++ ds')) : Suits accepts pipeBuf ds where
  fits := fits_of_append (List.map_append ▸ h.fits)
  length := fun d hd => h.length d (List.mem_append_left _ hd)
  accepted := fun d hd => h.accepted d (List.mem_append_left _ hd)

theorem loop_eq_untilError (accepts : Datagram → Bool) (rounds : ℕ) (s : Sending) :
    s.loop accepts rounds = untilError (Sending.iterate accepts) rounds s := by
  induction rounds generalizing s with
  | zero => rfl
  | succ rounds ih =>
    rw [Sending.loop,untilError]
    cases s.iterate accepts with
    | ok s' => exact ih s'
    | _ => rfl

theorem deframes_iterate (accepts : Datagram → Bool) (version : UInt8) :
    Deframes (Sending.iterate accepts) (·.reader.pending) Sending.sent (frameOctets version)
      (fun s ds => Suits accepts s.pipeBuf ds) where
  whole := by
    intro s d ds rest hsuits hpending
    have hlen := hsuits.length d List.mem_cons_self
    have hacc := hsuits.accepted d List.mem_cons_self
    have hcases := @iterate_frame accepts s (clientFrame version d hlen) rest hpending hsuits.fits.1
    rw [clientFrame_datagram] at hcases
    rcases hcases with ⟨-,rd,hrest,hok⟩ | ⟨hne,-⟩
    · exact ⟨_,hok,hrest,rfl,hsuits.fits.2,fun d' hd' => hsuits.length d' (List.mem_cons_of_mem _ hd'),
        fun d' hd' => hsuits.accepted d' (List.mem_cons_of_mem _ hd')⟩
    · rw [hacc] at hne
      cases hne
  cut := by
    intro s d ds more hsuits hmore hcut
    have hlen := hsuits.length d List.mem_cons_self
    have hoctets : s.reader.pending ++ more = (clientFrame version d hlen).octets := hcut
    have hshort : s.reader.pending.length < (clientFrame version d hlen).octets.length := by
      have hpos := List.length_pos_iff.mpr hmore
      rw [← hoctets,List.length_append]
      omega
    have hfront : s.reader.pending = (clientFrame version d hlen).octets.take s.reader.pending.length := by
      rw [← hoctets,List.take_left]
    rcases @iterate_cut accepts s (clientFrame version d hlen) _ hshort hfront with ⟨-,herror⟩ | ⟨hfits,-⟩
    · exact herror
    · refine absurd ?_ hfits
      rw [ClientFrame.announced]
      split
      · exact ⟨hsuits.fits.1,trivial⟩
      · trivial
  ended := by
    intro s hpending
    have hread : s.reader.readFull udpHeaderSize = .error .eof := Reader.readFull_eof (by decide) hpending
    exact ⟨.header (.read .eof),by rw [Sending.iterate,UDPHeader.readFrom,readFull,hread]; rfl⟩

/-- Wherever the frames stop, the server has forwarded the complete ones and fails there. -/
theorem send_front {accepts : Datagram → Bool} {rd : Reader UInt8} {h : UDPHeader} {ds : List Datagram}
    (hsuits : Suits accepts initialBuf ds) (hpending : rd.pending <+: frames h ds) :
    ∃ s e, send accepts rd = (s,.error e) ∧ s.sent = completeWithin frameLength ds rd.pending.length := by
  have hlength : (fun d => (frameOctets h.version d).length) = frameLength :=
    funext (length_frameOctets h.version)
  rw [frames_octets] at hpending
  have hrounds : (completeWithin (fun d => (frameOctets h.version d).length) ds rd.pending.length).length <
      rd.pending.length + 1 := by
    rw [hlength]
    exact Nat.lt_succ_of_le (length_completeWithin_le frameLength_pos ds _)
  obtain ⟨s,e,hloop,hsent⟩ := (deframes_iterate accepts h.version).untilError_front
    (s := ⟨rd,initialBuf,[]⟩) hsuits hpending hrounds
  rw [hlength] at hsent
  exact ⟨s,e,by rw [send,loop_eq_untilError,hloop],hsent⟩

/-- The state of `Crawler.listen` on a proxied socket, with the packets that it has passed on. -/
structure Listening where
  conn : UDPConn
  packets : List Datagram

/-- The length of the buffer of `Crawler.listen`. -/
def listenBuf : ℕ := 65536

def Listening.iterate (l : Listening) : Reading Listening := do
  let (d,conn) ← l.conn.readFrom listenBuf
  return ⟨conn,l.packets ++ [d]⟩

/-- The loop of `Crawler.listen` from the connection that `NewUDPConn` puts its reader on. -/
def listen (conn : Reader UInt8) (bufSize : ℕ) : Listening × Reading Unit :=
  untilError Listening.iterate (conn.pending.length+1) ⟨⟨conn.newReaderSize bufSize,⟨⟨0,0,0⟩,0,0⟩⟩,[]⟩

/-- No front of a frame passes for a frame. -/
theorem readFrom_cut {u : UDPConn} {version : UInt8} {d : Datagram} {more : Bytes} (hlen : d.payload.length ≤ listenBuf)
    (hmore : more ≠ []) (hcut : u.reader.pending ++ more = frameOctets version d) :
    ∃ e, u.readFrom listenBuf = .error e := by
  have hlen₃₂ : d.payload.length < 2^32 := Nat.lt_of_le_of_lt hlen (by decide)
  obtain ⟨f,hip,hpayload,hoctets⟩ : ∃ f : ClientFrame, f.ip = d.addr.ip ∧ f.payload = d.payload ∧
      frameOctets version d = f.header.writeTo (asSlice f.ip) ++ f.payload :=
    ⟨clientFrame version d hlen₃₂,rfl,rfl,rfl⟩
  have hfront : u.reader.pending <+: f.header.writeTo (asSlice f.ip) ++ f.payload := ⟨more,by rw [hcut,hoctets]⟩
  rcases front_cases hfront with ⟨-,more',hmore',hheader⟩ | ⟨-,rest,hheader,hrest⟩
  · obtain ⟨e,he⟩ := readFrom_short f.announces hmore' hheader
    exact ⟨e,by rw [UDPConn.readFrom,he]; rfl⟩
  · -- The header is there, and less than it announces behind it.
    obtain ⟨rd,hread,hrd⟩ := readFrom_announced f.announces hheader
    have hshort : rest.length < f.payload.length := by
      have htotal := congrArg List.length (hcut.trans hoctets)
      have hpos := List.length_pos_iff.mpr hmore
      rw [hheader] at htotal
      simp only [List.length_append] at htotal
      omega
    have hgrown : (if rd.size < f.payload.length then rd.newReaderSize (rd.size*2) else rd).pending.length <
        f.payload.length := by
      split
      · rwa [Reader.pending_newReaderSize,hrd]
      · rwa [hrd]
    obtain ⟨e,he⟩ := Reader.readFull_short hgrown
    refine ⟨.read e,?_⟩
    rw [UDPConn.readFrom,hread,Outcome.ok_bind]
    dsimp only
    rw [f.length,if_neg (by rw [hpayload]; exact Nat.not_lt.mpr hlen),readFull,he]
    rfl

theorem deframes_listen (version : UInt8) :
    Deframes Listening.iterate (·.conn.reader.pending) Listening.packets (frameOctets version)
      (fun _ ds => ∀ d ∈ ds, d.payload.length ≤ listenBuf) where
  whole := by
    intro l d ds rest hlen hpending
    have hd := hlen d List.mem_cons_self
    obtain ⟨u,hread,hrest⟩ := readFrom_frame (h := ⟨⟨0,0,0⟩,version,0⟩) (Nat.lt_of_le_of_lt hd (by decide)) hd hpending
    refine ⟨⟨u,l.packets ++ [d]⟩,?_,hrest,rfl,fun d' hd' => hlen d' (List.mem_cons_of_mem _ hd')⟩
    rw [Listening.iterate,hread]
    rfl
  cut := by
    intro l d ds more hlen hmore hcut
    obtain ⟨e,he⟩ := readFrom_cut (hlen d List.mem_cons_self) hmore hcut
    exact ⟨e,by rw [Listening.iterate,he]; rfl⟩
  ended := by
    intro l hpending
    exact ⟨_,by rw [Listening.iterate,readFrom_eof hpending]; rfl⟩

/-- Wherever the frames stop, the crawler has the packets of the complete ones and fails there. -/
theorem listen_front {conn : Reader UInt8} {h : UDPHeader} {ds : List Datagram} (bufSize : ℕ)
    (hlen : ∀ d ∈ ds, d.payload.length ≤ listenBuf) (hpending : conn.pending <+: frames h ds) :
    ∃ l e, listen conn bufSize = (l,.error e) ∧ l.packets = completeWithin frameLength ds conn.pending.length := by
  have hlength : (fun d => (frameOctets h.version d).length) = frameLength :=
    funext (length_frameOctets h.version)
  have hreader := Reader.pending_newReaderSize bufSize conn
  rw [frames_octets,← hreader] at hpending
  have hrounds : (completeWithin (fun d => (frameOctets h.version d).length) ds
      (conn.newReaderSize bufSize).pending.length).length < conn.pending.length + 1 := by
    rw [hlength,hreader]
    exact Nat.lt_succ_of_le (length_completeWithin_le frameLength_pos ds _)
  obtain ⟨l,e,hloop,hpackets⟩ := (deframes_listen h.version).untilError_front
    (s := ⟨⟨conn.newReaderSize bufSize,⟨⟨0,0,0⟩,0,0⟩⟩,[]⟩) hlen hpending hrounds
  rw [hlength,hreader] at hpackets
  exact ⟨l,e,hloop,hpackets⟩

end Loops

section Link

theorem send_grows {u u' : Outgoing} {d : Datagram} (h : u.send d = some u') :
    u.writer.sink.out <+: u'.writer.sink.out := by
  rw [send_eq] at h
  obtain ⟨w₁,h₁,h⟩ := Option.bind_eq_some_iff.mp h
  obtain ⟨w₂,h₂,h⟩ := Option.bind_eq_some_iff.mp h
  obtain ⟨w₃,h₃,h⟩ := Option.bind_eq_some_iff.mp h
  cases h
  exact ((Writer.write_grows h₁).trans (Writer.write_grows h₂)).trans (Writer.write_grows h₃)

/-- One direction of the tunnel: the client's end, the calls that it has returned from, and how many
of the octets on the connection have arrived at the server. -/
structure Link where
  client : Outgoing
  calls : List Call
  arrived : ℕ

inductive LinkStep
  | write (c : Call)
  | arrive (n : ℕ)

/-- The datagram that a step asks for. -/
def LinkStep.enqueued : LinkStep → Option Datagram
  | .write c => some c.datagram
  | .arrive _ => none

namespace Link

/-- A call returns, or some octets that were sent arrive. -/
def step (l : Link) : LinkStep → Option Link
  | .write c => do
    let client ← writeTo l.client c
    return { l with client := client, calls := l.calls ++ [c] }
  | .arrive n =>
    if l.arrived + n ≤ l.client.writer.sink.out.length then some { l with arrived := l.arrived + n } else none

/-- What has arrived at the server. -/
def stream (l : Link) : Bytes := l.client.writer.sink.out.take l.arrived

/-- The datagrams that were asked for. -/
def asked (l : Link) : List Datagram := l.calls.map Call.datagram

/-- The client has put its handshakes and all frames on the connection, up to what its buffer holds. -/
structure Consistent (lport : UInt16) (l : Link) : Prop where
  octets : l.client.writer.sink.out ++ l.client.writer.buf = preamble lport ++ frames ⟨⟨0,0,0⟩,0,0⟩ l.asked
  version : l.client.header.version = 0
  arrived : l.arrived ≤ l.client.writer.sink.out.length

theorem Consistent.start {conn : Sink UInt8} {lport : UInt16} {bufSize : ℤ} {u : Outgoing}
    (hopen : listenUDP conn lport bufSize = some u) (hconn : conn.out = []) : Consistent lport ⟨u,[],0⟩ := by
  obtain ⟨hheader,hbuf,hout⟩ := listenUDP_spec hopen
  refine ⟨?_,by rw [hheader],Nat.zero_le _⟩
  dsimp only
  rw [hout,hconn,hbuf]
  rfl

theorem Consistent.step {lport : UInt16} {l l' : Link} {a : LinkStep} (hl : Consistent lport l)
    (h : l.step a = some l') : Consistent lport l' := by
  cases a with
  | write c =>
    obtain ⟨u,hu,h⟩ := Option.bind_eq_some_iff.mp h
    cases h
    rw [writeTo_eq] at hu
    obtain ⟨hheader,-,hout,-⟩ := send_spec hu
    have hframe : (frame l.client.header c.datagram).2 = frameOctets 0 c.datagram := by
      rw [frame_octets,hl.version]
    have hasked : asked { l with client := u, calls := l.calls ++ [c] } = l.asked ++ [c.datagram] := by
      rw [asked,asked,List.map_append,List.map_singleton]
    refine ⟨?_,?_,?_⟩
    · rw [hasked,frames_octets,List.map_append,List.flatten_append]
      rw [← frames_octets ⟨⟨0,0,0⟩,0,0⟩ l.asked,← List.append_assoc,← hl.octets]
      simp [hout,hframe]
    · dsimp only
      rw [hheader]
      exact hl.version
    · exact Nat.le_trans hl.arrived (send_grows hu).length_le
  | arrive n =>
    rw [Link.step,Option.ite_none_right_eq_some] at h
    obtain ⟨hn,h⟩ := h
    cases h
    exact ⟨hl.octets,hl.version,hn⟩

theorem Consistent.reach {lport : UInt16} {l₀ l : Link} (h₀ : Consistent lport l₀)
    (hl : Reach Link.step (Free Link LinkStep) l₀ l) : Consistent lport l :=
  hl.invariant h₀ (fun hs _ h => hs.step h)

variable {lport : UInt16} {l : Link}

theorem Consistent.length_stream (hl : Consistent lport l) : l.stream.length = l.arrived := by
  rw [stream,List.length_take,Nat.min_eq_left hl.arrived]

theorem Consistent.front (hl : Consistent lport l) :
    l.stream <+: preamble lport ++ frames ⟨⟨0,0,0⟩,0,0⟩ l.asked := by
  rw [← hl.octets]
  exact (List.take_prefix _ _).trans (List.prefix_append _ _)

/-- What is not on the connection yet is in the client's buffer. -/
theorem Consistent.length_out (hl : Consistent lport l) :
    l.client.writer.sink.out.length + l.client.writer.buf.length = 4 + (l.asked.map frameLength).sum := by
  have hlen := congrArg List.length hl.octets
  rwa [List.length_append,List.length_append,length_preamble,length_frames] at hlen

/-- The server opens the socket once the handshakes are there, and it has forwarded what was complete. -/
theorem Consistent.serve {opens : UInt16 → Bool} {accepts : Datagram → Bool} (hl : Consistent lport l)
    (hopens : opens lport = true) (hsuits : Suits accepts initialBuf l.asked) (bufSize : ℕ) {conn : Reader UInt8}
    (hconn : conn.pending = l.stream) :
    (l.arrived < 4 → ∃ e, serve opens accepts bufSize conn = .error e) ∧
    (4 ≤ l.arrived → ∃ s e, serve opens accepts bufSize conn = .ok (lport,s,.error e) ∧
      s.sent = completeWithin frameLength l.asked (l.arrived - 4)) := by
  have hlen : conn.pending.length = l.arrived := by rw [hconn,hl.length_stream]
  refine ⟨fun hshort => serve_short (by rwa [hlen]),?_⟩
  intro hfour
  rcases front_cases (hconn ▸ hl.front) with ⟨hlt,-⟩ | ⟨-,rest,hrest,hfront⟩
  · rw [length_preamble,hlen] at hlt
    omega
  · obtain ⟨rd,hrd,hserve⟩ := serve_preamble hopens accepts bufSize hrest
    obtain ⟨s,e,hsend,hsent⟩ := send_front hsuits (hrd ▸ hfront)
    refine ⟨s,e,by rw [hserve,hsend],?_⟩
    have htotal := congrArg List.length hrest
    rw [List.length_append,length_preamble,hlen] at htotal
    rw [hsent,hrd,htotal,Nat.add_sub_cancel_left]

/-- The datagrams that the server has forwarded by now. -/
def forwarded (opens : UInt16 → Bool) (accepts : Datagram → Bool) (bufSize : ℕ) (l : Link) : List Datagram :=
  match Proxy.serve opens accepts bufSize (.source [l.stream]) with
  | .ok (_,s,_) => s.sent
  | _ => []

def queue (opens : UInt16 → Bool) (accepts : Datagram → Bool) (bufSize : ℕ) (l : Link) : Queue Datagram where
  waiting := l.asked.drop (l.forwarded opens accepts bufSize).length
  delivered := l.forwarded opens accepts bufSize

theorem Consistent.queue_eq {opens : UInt16 → Bool} {accepts : Datagram → Bool} (hl : Consistent lport l)
    (hopens : opens lport = true) (hsuits : Suits accepts initialBuf l.asked) (bufSize : ℕ) :
    l.queue opens accepts bufSize = streamQueue frameLength l.asked (l.arrived - 4) := by
  have hstream : (Reader.source [l.stream]).pending = l.stream := List.append_nil _
  obtain ⟨hearly,hlate⟩ := hl.serve hopens hsuits bufSize hstream
  have hforwarded : l.forwarded opens accepts bufSize = completeWithin frameLength l.asked (l.arrived - 4) := by
    rw [forwarded]
    rcases Nat.lt_or_ge l.arrived 4 with hshort | hfour
    · obtain ⟨e,he⟩ := hearly hshort
      rw [he,Nat.sub_eq_zero_of_le hshort.le]
      exact (List.length_eq_zero_iff.mp (Nat.le_zero.mp (length_completeWithin_le frameLength_pos l.asked 0))).symm
    · obtain ⟨s,e,he,hsent⟩ := hlate hfour
      rw [he]
      exact hsent
  rw [queue,streamQueue,hforwarded]

/-- A call puts its datagram at the end of the queue; an arrival lets some out at its front. -/
theorem Consistent.queue_step {opens : UInt16 → Bool} {accepts : Datagram → Bool} {l' : Link} {a : LinkStep}
    (hl : Consistent lport l) (h : l.step a = some l') (hopens : opens lport = true)
    (hsuits : Suits accepts initialBuf l'.asked) (bufSize : ℕ) :
    Queue.Step (l.queue opens accepts bufSize) a.enqueued (l'.queue opens accepts bufSize) := by
  rw [(hl.step h).queue_eq hopens hsuits]
  cases a with
  | write c =>
    obtain ⟨u,-,h⟩ := Option.bind_eq_some_iff.mp h
    cases h
    have hasked : asked { l with client := u, calls := l.calls ++ [c] } = l.asked ++ [c.datagram] := List.map_append
    rw [hasked] at hsuits ⊢
    rw [hl.queue_eq hopens hsuits.of_append]
    refine streamQueue_snoc (frameLength_pos _) ?_
    have hlen := hl.length_out
    have hle := hl.arrived
    omega
  | arrive n =>
    rw [Link.step,Option.ite_none_right_eq_some] at h
    cases h.2
    rw [hl.queue_eq hopens hsuits]
    exact streamQueue_mono _ (Nat.sub_le_sub_right (Nat.le_add_right _ _) 4)

/-- Nothing is lost or added between the calls and the network. -/
theorem Consistent.queue_items {opens : UInt16 → Bool} {accepts : Datagram → Bool} (hl : Consistent lport l)
    (hopens : opens lport = true) (hsuits : Suits accepts initialBuf l.asked) (bufSize : ℕ) :
    (l.queue opens accepts bufSize).delivered ++ (l.queue opens accepts bufSize).waiting = l.asked := by
  rw [hl.queue_eq hopens hsuits]
  exact drop_completeWithin frameLength l.asked _

end Link

variable {opens : UInt16 → Bool} {accepts : Datagram → Bool}

/-- At any time, whatever order calls and arrivals take, the server has forwarded exactly the datagrams
whose frames have arrived as a whole, in order and in any chunks. Once all that was sent has arrived,
those that are missing behind the next one fit the client's buffer. -/
theorem tunnel_forwards_complete_frames (conn : Sink UInt8) (hconn : conn.out = []) (lport : UInt16) (bufSize : ℤ)
    (u : Outgoing) (hopen : listenUDP conn lport bufSize = some u) (l : Link)
    (hl : Reach Link.step (Free Link LinkStep) ⟨u,[],0⟩ l) (hopens : opens lport = true)
    (hsuits : Suits accepts initialBuf l.asked) (serverBufSize : ℕ) (rd : Reader UInt8)
    (hrd : rd.pending = l.stream) :
    (l.arrived < 4 → ∃ e, serve opens accepts serverBufSize rd = .error e) ∧
    (4 ≤ l.arrived → ∃ s e, serve opens accepts serverBufSize rd = .ok (lport,s,.error e) ∧
      s.sent = completeWithin frameLength l.asked (l.arrived - 4)) ∧
    (l.arrived = l.client.writer.sink.out.length →
      ((l.asked.drop ((completeWithin frameLength l.asked (l.arrived - 4)).length + 1)).map frameLength).sum ≤
        l.client.writer.size) := by
  have hconsistent := (Link.Consistent.start hopen hconn).reach hl
  obtain ⟨hearly,hlate⟩ := hconsistent.serve hopens hsuits serverBufSize hrd
  refine ⟨hearly,hlate,?_⟩
  intro hall
  apply sum_drop_completeWithin_le
  have hlen := hconsistent.length_out
  have hfits := l.client.writer.fits
  omega

/-- Two calls over a buffer that lets everything through. Of their frames the first has arrived, and
three octets of the second. -/
def sampleSteps : List LinkStep :=
  [.write ⟨ascii "foo",shortDatagram.addr⟩,.arrive 3,.write ⟨ascii "bar",shortDatagram.addr⟩,.arrive 20]

/-- The client of the sample, and the link behind its steps. -/
def sampleLink : Option (Outgoing × Link) := do
  let u ← listenUDP openSink 6881 1
  let l ← run Link.step ⟨u,[],0⟩ sampleSteps
  return (u,l)

theorem exists_sampleLink :
    ∃ u l, listenUDP openSink 6881 1 = some u ∧ run Link.step ⟨u,[],0⟩ sampleSteps = some l ∧
      l.arrived = 23 ∧ l.asked = [⟨shortDatagram.addr,ascii "foo"⟩,⟨shortDatagram.addr,ascii "bar"⟩] := by
  have hsample : sampleLink.map (fun s => (s.2.arrived,s.2.asked)) =
      some (23,[⟨shortDatagram.addr,ascii "foo"⟩,⟨shortDatagram.addr,ascii "bar"⟩]) := by decide +kernel
  obtain ⟨⟨u,l⟩,hlink,hvalues⟩ := Option.map_eq_some_iff.mp hsample
  unfold sampleLink at hlink
  obtain ⟨u',hu,hlink⟩ := Option.bind_eq_some_iff.mp hlink
  obtain ⟨l',hl,hlink⟩ := Option.bind_eq_some_iff.mp hlink
  cases hlink
  exact ⟨u,l,hu,hl,(Prod.mk.inj hvalues).1,(Prod.mk.inj hvalues).2⟩

theorem sample_suits :
    Suits (fun _ => true) initialBuf [⟨shortDatagram.addr,ascii "foo"⟩,⟨shortDatagram.addr,ascii "bar"⟩] :=
  ⟨by decide +kernel,by decide +kernel,fun _ _ => rfl⟩

theorem sample_first_forwarded :
    ∃ l : Link, ∃ s e, serve (fun _ => true) (fun _ => true) 16 (.source [l.stream]) = .ok (6881,s,.error e) ∧
      s.sent = [⟨shortDatagram.addr,ascii "foo"⟩] := by
  obtain ⟨u,l,hu,hl,harrived,hasked⟩ := exists_sampleLink
  have hstream : (Reader.source [l.stream]).pending = l.stream := List.append_nil _
  have hsuits : Suits (fun _ => true) initialBuf l.asked := hasked ▸ sample_suits
  obtain ⟨-,hlate,-⟩ := @tunnel_forwards_complete_frames (fun _ => true) (fun _ => true) openSink rfl 6881 1 u hu l
    (Reach.of_run _ hl) rfl hsuits 16 (.source [l.stream]) hstream
  obtain ⟨s,e,hserve,hsent⟩ := hlate (by omega)
  refine ⟨l,s,e,hserve,?_⟩
  rw [hsent,hasked,harrived]
  decide +kernel

/-- To the client and the network behind the server the tunnel is a queue of datagrams: from every state
that it comes to, a call puts its datagram at the end, an arrival lets some out at the front, and those that
are out and those under way are the ones asked for, in order. -/
theorem tunnel_refines_queue (conn : Sink UInt8) (hconn : conn.out = []) (lport : UInt16) (bufSize : ℤ)
    (u : Outgoing) (hopen : listenUDP conn lport bufSize = some u) (l : Link)
    (hl : Reach Link.step (Free Link LinkStep) ⟨u,[],0⟩ l) (hopens : opens lport = true) (serverBufSize : ℕ)
    (a : LinkStep) (l' : Link) (hstep : l.step a = some l') (hsuits : Suits accepts initialBuf l'.asked) :
    Queue.Step (l.queue opens accepts serverBufSize) a.enqueued (l'.queue opens accepts serverBufSize) ∧
    (l'.queue opens accepts serverBufSize).delivered ++ (l'.queue opens accepts serverBufSize).waiting =
      l'.asked := by
  have hconsistent := (Link.Consistent.start hopen hconn).reach hl
  exact ⟨hconsistent.queue_step hstep hopens hsuits serverBufSize,
    (hconsistent.step hstep).queue_items hopens hsuits serverBufSize⟩

/-- The link of the sample before and behind its last step. -/
def sampleArrival : Option (Link × Link) := do
  let u ← listenUDP openSink 6881 1
  let l ← run Link.step ⟨u,[],0⟩ (sampleSteps.take 3)
  let l' ← l.step (.arrive 20)
  return (l,l')

/-- The last step of the sample lets the first datagram out. -/
theorem sample_queued :
    ∃ l l' : Link, l.step (.arrive 20) = some l' ∧
      Queue.Step (l.queue (fun _ => true) (fun _ => true) 16) none (l'.queue (fun _ => true) (fun _ => true) 16) ∧
      (l.queue (fun _ => true) (fun _ => true) 16).delivered = [] ∧
      (l'.queue (fun _ => true) (fun _ => true) 16).delivered = [⟨shortDatagram.addr,ascii "foo"⟩] ∧
      (l'.queue (fun _ => true) (fun _ => true) 16).waiting = [⟨shortDatagram.addr,ascii "bar"⟩] := by
  have hsample : sampleArrival.map (fun s => (s.1.forwarded (fun _ => true) (fun _ => true) 16,
        s.2.forwarded (fun _ => true) (fun _ => true) 16,s.2.asked)) =
      some ([],[⟨shortDatagram.addr,ascii "foo"⟩],
        [⟨shortDatagram.addr,ascii "foo"⟩,⟨shortDatagram.addr,ascii "bar"⟩]) := by decide +kernel
  obtain ⟨⟨l,l'⟩,hlink,hvalues⟩ := Option.map_eq_some_iff.mp hsample
  obtain ⟨hbefore,hvalues⟩ := Prod.mk.inj hvalues
  obtain ⟨hbehind,hasked⟩ := Prod.mk.inj hvalues
  unfold sampleArrival at hlink
  obtain ⟨u,hu,hlink⟩ := Option.bind_eq_some_iff.mp hlink
  obtain ⟨l₁,hl,hlink⟩ := Option.bind_eq_some_iff.mp hlink
  obtain ⟨l₂,hstep,hlink⟩ := Option.bind_eq_some_iff.mp hlink
  cases hlink
  obtain ⟨hqueue,-⟩ := @tunnel_refines_queue (fun _ => true) (fun _ => true) openSink rfl 6881 1 u hu l
    (Reach.of_run _ hl) rfl 16 (.arrive 20) l' hstep (hasked ▸ sample_suits)
  refine ⟨l,l',hstep,hqueue,hbefore,hbehind,?_⟩
  rw [Link.queue,hbehind,hasked]
  rfl

/-- On the way back the crawler gets the packets that the server kept, those whose frames have arrived
as a whole, and its buffer is never too short for one. -/
theorem tunnel_returns_complete_frames (ds : List Datagram) (hsize : ∀ d ∈ ds, d.payload.length < 65536)
    (conn : Sink UInt8) (hconn : conn.out = []) (serverBufSize : ℤ) (r : Receiving)
    (hr : run Receiving.receive (newReceiving conn serverBufSize) ds = some r) (rd : Reader UInt8)
    (hrd : rd.pending <+: r.outgoing.writer.sink.out) (bufSize : ℕ) :
    ∃ l e, listen rd bufSize = (l,.error e) ∧
      l.packets = completeWithin frameLength (kept initialBuf ds) rd.pending.length := by
  have hstream := (run_send_stream (run_receive hr)).2
  have hstart : (newReceiving conn serverBufSize).outgoing.writer.sink.out ++
      (newReceiving conn serverBufSize).outgoing.writer.buf = [] := by
    rw [newReceiving]
    exact (List.append_nil _).trans hconn
  rw [hstart,List.nil_append] at hstream
  have hfront : rd.pending <+: frames ⟨⟨0,0,0⟩,0,0⟩ (kept initialBuf ds) := by
    refine hrd.trans ?_
    exact ⟨_,hstream⟩
  refine listen_front bufSize ?_ hfront
  intro d hd
  exact (hsize d ((kept_sublist _ _).subset hd)).le

theorem shortDatagram_returned :
    ∃ r l e, run Receiving.receive (newReceiving openSink 1) [shortDatagram] = some r ∧
      listen (.source [r.outgoing.writer.sink.out]) 16 = (l,.error e) ∧ l.packets = [shortDatagram] := by
  have hsize : ∀ d ∈ [shortDatagram], d.payload.length < 65536 := by
    intro d hd
    rw [List.mem_singleton.mp hd]
    decide
  obtain ⟨r,hr⟩ := run_receive_total (r := newReceiving openSink 1) [shortDatagram] (fun _ => rfl)
  have hlen : (run Receiving.receive (newReceiving openSink 1) [shortDatagram]).map
      (·.outgoing.writer.sink.out.length) = some 16 := by decide +kernel
  have hstream : (Reader.source [r.outgoing.writer.sink.out]).pending = r.outgoing.writer.sink.out :=
    List.append_nil _
  obtain ⟨l,e,hlisten,hpackets⟩ := tunnel_returns_complete_frames [shortDatagram] hsize openSink rfl 1 r hr
    (.source [r.outgoing.writer.sink.out]) (by rw [hstream]) 16
  refine ⟨r,l,e,hr,hlisten,?_⟩
  rw [hr,Option.map_some,Option.some.injEq] at hlen
  rw [hpackets,hstream,hlen]
  decide +kernel

end Link

end DhtOcean.Proxy
