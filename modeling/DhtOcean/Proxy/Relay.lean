import DhtOcean.Proxy.Delivery

/-! # The two loops of the proxy server

`receive` doubles its buffer for a packet that fills it and gives the packet up, so
that a handful of packets at most is lost. `send` doubles its buffer for a frame
that exceeds it and goes on with the frame, which may exceed the new one as well.
-/
namespace DhtOcean.Proxy
open Foundation

section Receive

/-- The length of both buffers at first. -/
def initialBuf : ℕ := 4096

def newReceiving (sink : Sink UInt8) (bufSize : ℤ) : Receiving :=
  ⟨⟨⟨⟨0,0,0⟩,0,0⟩,Writer.newWriterSize sink bufSize⟩,initialBuf⟩

/-- What was written to the buffered connection, whether it has passed it or not. -/
def Receiving.written (r : Receiving) : Bytes := r.outgoing.writer.sink.out ++ r.outgoing.writer.buf

/-- One iteration drops the packet and doubles the buffer, or it writes a frame with all of the packet. -/
def Handles (r r' : Receiving) (d : Datagram) : Prop :=
  (r.readBuf ≤ d.payload.length ∧ r'.readBuf = 2*r.readBuf ∧ r'.written = r.written) ∨
  (d.payload.length < r.readBuf ∧ r'.readBuf = r.readBuf ∧
    r'.written = r.written ++ (frame r.outgoing.header d).2)

/-- What the server makes of the packets `ds`: it sends some of them, in order, and whoever reads the
octets `w` that it writes gets these. -/
structure Relayed (ds sent : List Datagram) (w : Bytes) : Prop where
  sublist : sent.Sublist ds
  dropped : ds.length ≤ sent.length + 4
  read_back : ∀ u : UDPConn, u.reader.pending = w →
    ∃ u', u.readMany 65536 sent.length = .ok (sent,u') ∧ u'.reader.pending = []

theorem kept_sublist (readBuf : ℕ) (ds : List Datagram) : (kept readBuf ds).Sublist ds := by
  induction ds generalizing readBuf with
  | nil => exact .slnil
  | cons d ds ih =>
    rw [kept]
    split
    · exact (ih _).cons d
    · exact (ih _).cons_cons d

/-- Each drop doubles the buffer, and a buffer of 65536 octets drops nothing. -/
theorem length_le_kept {k readBuf : ℕ} {ds : List Datagram} (hsize : ∀ d ∈ ds, d.payload.length < 65536)
    (hk : 65536 ≤ 2^k*readBuf) : ds.length ≤ (kept readBuf ds).length + k := by
  induction ds generalizing k readBuf with
  | nil => exact Nat.zero_le _
  | cons d ds ih =>
    have hd := hsize d List.mem_cons_self
    have hds : ∀ d ∈ ds, d.payload.length < 65536 := fun d hd => hsize d (List.mem_cons_of_mem _ hd)
    rw [kept]
    split
    · cases k with
      | zero => omega
      | succ k =>
        have hrest := @ih k (2*readBuf) hds (by rw [← Nat.mul_assoc,← Nat.pow_succ]; exact hk)
        rw [List.length_cons]
        omega
    · have hrest := @ih k readBuf hds hk
      rw [List.length_cons,List.length_cons]
      omega

theorem relayed_kept {ds : List Datagram} (hsize : ∀ d ∈ ds, d.payload.length < 65536) (h : UDPHeader) :
    Relayed ds (kept initialBuf ds) (frames h (kept initialBuf ds)) where
  sublist := kept_sublist _ _
  dropped := length_le_kept hsize (by decide)
  read_back := by
    intro u hpending
    have hkept : ∀ d ∈ kept initialBuf ds, d.payload.length < 65536 := by
      intro d hd
      exact hsize d ((kept_sublist _ _).subset hd)
    have hframes : u.reader.pending = frames h (kept initialBuf ds) ++ [] := by rw [hpending,List.append_nil]
    refine readMany_frames ?_ ?_ hframes
    · intro d hd
      have := hkept d hd
      omega
    · intro d hd
      exact (hkept d hd).le

theorem send_total (u : Outgoing) (d : Datagram) (h : ∀ n, u.writer.sink.accepts n = true) :
    ∃ u', u.send d = some u' ∧ ∀ n, u'.writer.sink.accepts n = true := by
  rw [send_eq]
  obtain ⟨w₁,h₁,hw₁⟩ := Writer.write_total (frame u.header d).1.encode h
  obtain ⟨w₂,h₂,hw₂⟩ := Writer.write_total (asSlice d.addr.ip) hw₁
  obtain ⟨w₃,h₃,hw₃⟩ := Writer.write_total d.payload hw₂
  exact ⟨_,by rw [h₁]; simp only [Option.bind_eq_bind,Option.bind_some,h₂,h₃]; rfl,hw₃⟩

theorem receive_total (r : Receiving) (d : Datagram) (h : ∀ n, r.outgoing.writer.sink.accepts n = true) :
    ∃ r', r.receive d = some r' ∧ ∀ n, r'.outgoing.writer.sink.accepts n = true := by
  unfold Receiving.receive
  dsimp only
  split
  · exact ⟨_,rfl,h⟩
  · obtain ⟨u,hu,hsink⟩ := send_total r.outgoing ⟨d.addr,d.payload.take (min d.payload.length r.readBuf)⟩ h
    exact ⟨_,by rw [hu]; rfl,hsink⟩

theorem run_receive_total {r : Receiving} (ds : List Datagram) (h : ∀ n, r.outgoing.writer.sink.accepts n = true) :
    ∃ r', run Receiving.receive r ds = some r' := by
  induction ds generalizing r with
  | nil => exact ⟨r,rfl⟩
  | cons d ds ih =>
    obtain ⟨r₁,h₁,hsink⟩ := receive_total r d h
    obtain ⟨r',hr'⟩ := ih hsink
    exact ⟨r',by rw [run,h₁,Option.bind_some,hr']⟩

theorem receive_handles {r r' : Receiving} {d : Datagram} (h : r.receive d = some r') : Handles r r' d := by
  rcases receive_cases h with ⟨hlen,rfl⟩ | ⟨hlen,u,hu,rfl⟩
  · exact .inl ⟨hlen,rfl,rfl⟩
  · refine .inr ⟨Nat.not_le.mp hlen,rfl,?_⟩
    exact (send_spec hu).2.2.1

/-- Over a connection that takes its writes, `receive` passes on all of a packet or drops it, and it
drops a packet exactly if this is at least as long as its buffer. No more than four are dropped. -/
theorem receive_relays (ds : List Datagram) (hsize : ∀ d ∈ ds, d.payload.length < 65536) (sink : Sink UInt8)
    (hsink : ∀ n, sink.accepts n = true) (bufSize : ℤ) :
    (∃ r sent w, run Receiving.receive (newReceiving sink bufSize) ds = some r ∧ r.written = sink.out ++ w ∧
      Relayed ds sent w) ∧
    ∀ ds₁ d ds₂, ds = ds₁ ++ d :: ds₂ →
      ∃ r₁ r₂, run Receiving.receive (newReceiving sink bufSize) ds₁ = some r₁ ∧ r₁.receive d = some r₂ ∧
        Handles r₁ r₂ d := by
  constructor
  · obtain ⟨r,hr⟩ := run_receive_total (r := newReceiving sink bufSize) ds hsink
    refine ⟨r,_,_,hr,?_,relayed_kept hsize ⟨⟨0,0,0⟩,0,0⟩⟩
    have hstream := (run_send_stream (run_receive hr)).2
    have hbuf : (newReceiving sink bufSize).outgoing.writer.buf = [] := rfl
    rw [hbuf,List.append_nil] at hstream
    exact hstream
  · rintro ds₁ d ds₂ rfl
    obtain ⟨r,hr⟩ := run_receive_total (r := newReceiving sink bufSize) (ds₁ ++ d :: ds₂) hsink
    obtain ⟨r₁,h₁,h₂⟩ := run_append_eq_some.mp hr
    obtain ⟨r₂,hd,-⟩ := Option.bind_eq_some_iff.mp h₂
    exact ⟨r₁,r₂,h₁,hd,receive_handles hd⟩

/-- A packet that fills the first buffer. -/
def longDatagram : Datagram := ⟨shortDatagram.addr,List.replicate 4096 0⟩

/-- The long packet is dropped the first time and passed on the second time, and the short one after it. -/
theorem longDatagram_dropped_once :
    (∃ r sent w, run Receiving.receive (newReceiving openSink 0) [longDatagram,longDatagram,shortDatagram] = some r ∧
      r.written = w ∧ Relayed [longDatagram,longDatagram,shortDatagram] sent w) ∧
    ∃ r₁ r₂, (newReceiving openSink 0).receive longDatagram = some r₁ ∧ r₁.readBuf = 8192 ∧ r₁.written = [] ∧
      r₁.receive longDatagram = some r₂ ∧ r₂.readBuf = 8192 ∧ r₂.written = (frame r₁.outgoing.header longDatagram).2 := by
  have hlong : longDatagram.payload.length = 4096 := List.length_replicate
  have hsize : ∀ d ∈ [longDatagram,longDatagram,shortDatagram], d.payload.length < 65536 := by
    simp only [List.forall_mem_cons,hlong]
    exact ⟨by decide,by decide,by decide,nofun⟩
  obtain ⟨hrelayed,heach⟩ := receive_relays _ hsize openSink (fun _ => rfl) 0
  obtain ⟨r₀,r₁,h₀,h₁,hfirst⟩ := heach [] longDatagram [longDatagram,shortDatagram] rfl
  cases h₀
  obtain ⟨r₁',r₂,h₁',h₂,hsecond⟩ := heach [longDatagram] longDatagram [shortDatagram] rfl
  rw [run,h₁] at h₁'
  cases h₁'
  obtain ⟨-,hbuf,hwritten⟩ | ⟨hlt,-,-⟩ := hfirst
  · have hbuf : r₁.readBuf = 8192 := hbuf
    obtain ⟨hle,-,-⟩ | ⟨-,hbuf₂,hwritten₂⟩ := hsecond
    · rw [hbuf,hlong] at hle
      cases (by decide : ¬ 8192 ≤ 4096) hle
    · rw [hwritten] at hwritten₂
      exact ⟨hrelayed,r₁,r₂,h₁,hbuf,hwritten,h₂,hbuf₂.trans hbuf,hwritten₂⟩
  · rw [hlong] at hlt
    exact absurd hlt (Nat.lt_irrefl 4096)

end Receive

section Send

inductive SendError
  | header (e : ProtocolError)
  | data (e : ProtocolError)
  | illegalLength
  | write
  deriving DecidableEq, Repr

/-- The state of `UDPHandler.send`: the buffered connection, the length of its buffer and the datagrams
that the socket has taken. -/
structure Sending where
  reader : Reader UInt8
  pipeBuf : ℕ
  sent : List Datagram

/-- The buffer behind the test of its length. -/
def extend (pipeBuf n : ℕ) : ℕ := if pipeBuf < n then 2*pipeBuf else pipeBuf

/-- One iteration, over a socket that takes the datagrams in `accepts`. -/
def Sending.iterate (accepts : Datagram → Bool) (s : Sending) : Outcome SendError Sending := do
  let (hdr,addrPort,rd) ← (UDPHeader.readFrom s.reader).mapError .header
  let pipeBuf := extend s.pipeBuf hdr.length.toNat
  if pipeBuf < hdr.length.toNat then .panic .sliceBounds
  else do
    let (data,rd) ← (readFull hdr.length.toNat rd).mapError .data
    if data.length ≠ hdr.length.toNat then .error .illegalLength
    else if accepts ⟨addrPort,data⟩ then return ⟨rd,pipeBuf,s.sent ++ [⟨addrPort,data⟩]⟩
    else .error .write

/-- The loop, with the state in which its last iteration began. -/
def Sending.loop (accepts : Datagram → Bool) : ℕ → Sending → Sending × Outcome SendError Unit
  | 0, s => (s,.hang)
  | rounds+1, s =>
    match s.iterate accepts with
    | .ok s' => loop accepts rounds s'
    | .error e => (s,.error e)
    | .panic p => (s,.panic p)
    | .hang => (s,.hang)

/-- Each iteration takes a header off the stream, so there are fewer of them than octets. -/
def send (accepts : Datagram → Bool) (rd : Reader UInt8) : Sending × Outcome SendError Unit :=
  Sending.loop accepts (rd.pending.length+1) ⟨rd,initialBuf,[]⟩

/-- A frame as a client may write it: with any version, and its address under any of the two types. -/
structure ClientFrame where
  header : UDPHeader
  ip : IpAddr
  payload : Bytes
  announces : Announces header.toAddrHeader ip
  length : header.length.toNat = payload.length

namespace ClientFrame

def octets (f : ClientFrame) : Bytes := f.header.writeTo (asSlice f.ip) ++ f.payload

def datagram (f : ClientFrame) : Datagram := ⟨⟨f.ip,f.header.port⟩,f.payload⟩

/-- The lengths that the first `k` octets of the frame announce. -/
def announced (f : ClientFrame) (k : ℕ) : List ℕ :=
  if (f.header.writeTo (asSlice f.ip)).length ≤ k then [f.payload.length] else []

end ClientFrame

/-- No length exceeds twice the buffer, which doubles for each length that exceeds it. -/
def Fits : ℕ → List ℕ → Prop
  | _, [] => True
  | pipeBuf, n :: ns => n ≤ 2*pipeBuf ∧ Fits (extend pipeBuf n) ns

instance decidableFits : ∀ pipeBuf ns, Decidable (Fits pipeBuf ns)
  | _, [] => isTrue trivial
  | pipeBuf, n :: ns =>
    have := decidableFits (extend pipeBuf n) ns
    inferInstanceAs (Decidable (n ≤ 2*pipeBuf ∧ Fits (extend pipeBuf n) ns))

/-- A length above twice a size of the buffer comes only behind a length above that size. -/
def Graded (size : ℕ) (ns : List ℕ) : Prop :=
  ∀ before n after, ns = before ++ n :: after → ∀ k, 2^(k+1)*size < n → ∃ m ∈ before, 2^k*size < m

theorem extend_lt_iff {pipeBuf n : ℕ} : extend pipeBuf n < n ↔ ¬ n ≤ 2*pipeBuf := by
  unfold extend
  split <;> omega

/-- The buffer that a length leaves is doubled `b'` times: it holds the length if that fits at all, and the length
is above every size in between. -/
theorem exists_extend (size b n : ℕ) : ∃ b', extend (2^b*size) n = 2^b'*size ∧ b ≤ b' ∧
    (n ≤ 2^(b+1)*size → n ≤ 2^b'*size) ∧ ∀ k, b ≤ k → k < b' → 2^k*size < n := by
  unfold extend
  split
  · rename_i hlt
    refine ⟨b+1,?_,Nat.le_succ b,id,fun k hk hk' => ?_⟩
    · rw [Nat.pow_succ,← Nat.mul_assoc,Nat.mul_comm 2]
    · obtain rfl : k = b := by omega
      exact hlt
  · rename_i hle
    exact ⟨b,rfl,Nat.le_refl b,fun _ => Nat.not_lt.mp hle,fun k hk hk' => absurd hk (Nat.not_le.mpr hk')⟩

/-- The buffer has been doubled `b` times, so lengths up to that size have no say any more. -/
theorem fits_iff {size b : ℕ} {ns : List ℕ} : Fits (2^b*size) ns ↔
    ∀ before n after, ns = before ++ n :: after → ∀ k ≥ b, 2^(k+1)*size < n → ∃ m ∈ before, 2^k*size < m := by
  induction ns generalizing b with
  | nil => exact iff_of_true trivial (by simp)
  | cons n ns ih =>
    obtain ⟨b',hextend,hle,hholds,hbelow⟩ := exists_extend size b n
    have hmono : ∀ {i j : ℕ}, i ≤ j → 2^i*size ≤ 2^j*size :=
      fun h => Nat.mul_le_mul_right size (Nat.pow_le_pow_right Nat.two_pos h)
    rw [Fits,hextend,show 2*(2^b*size) = 2^(b+1)*size by rw [Nat.pow_succ,← Nat.mul_assoc,Nat.mul_comm 2]]
    constructor
    · rintro ⟨hn,hfits⟩ before m after hsplit k hk hm
      cases before with
      | nil =>
        cases hsplit
        exact absurd (hn.trans (hmono (Nat.succ_le_succ hk))) (Nat.not_le.mpr hm)
      | cons x before =>
        obtain ⟨rfl,htail⟩ := List.cons.inj hsplit
        by_cases hk' : k < b'
        · exact ⟨n,List.mem_cons_self,hbelow k hk hk'⟩
        · obtain ⟨y,hy,hlt⟩ := ih.mp hfits before m after htail k (Nat.not_lt.mp hk') hm
          exact ⟨y,List.mem_cons_of_mem n hy,hlt⟩
    · intro h
      have hn : n ≤ 2^(b+1)*size := by
        by_contra hgt
        obtain ⟨m,hm,-⟩ := h [] n ns rfl b (Nat.le_refl b) (Nat.not_le.mp hgt)
        cases hm
      refine ⟨hn,ih.mpr ?_⟩
      intro before m after hsplit k hk hm
      obtain ⟨y,hy,hlt⟩ := h (n :: before) m after (by rw [hsplit]; rfl) k (hle.trans hk) hm
      rcases List.mem_cons.mp hy with rfl | hy
      · exact absurd ((hholds hn).trans (hmono hk)) (Nat.not_le.mpr hlt)
      · exact ⟨y,hy,hlt⟩

theorem fits_iff_graded {size : ℕ} {ns : List ℕ} : Fits size ns ↔ Graded size ns := by
  have h := @fits_iff size 0 ns
  rw [Nat.pow_zero,Nat.one_mul] at h
  rw [h]
  exact ⟨fun hall before n after hsplit k => hall before n after hsplit k (Nat.zero_le k),
    fun hall before n after hsplit k _ => hall before n after hsplit k⟩

section Iterate
variable {accepts : Datagram → Bool} {s : Sending} {f : ClientFrame} {rest : Bytes}

/-- Behind the header the length decides. -/
theorem iterate_announced (hpending : s.reader.pending = f.header.writeTo (asSlice f.ip) ++ rest) :
    ∃ rd, rd.pending = rest ∧
      (¬ f.payload.length ≤ 2*s.pipeBuf → s.iterate accepts = .panic .sliceBounds) ∧
      (f.payload.length ≤ 2*s.pipeBuf → s.iterate accepts = do
        let (data,rd) ← (readFull f.payload.length rd).mapError .data
        if data.length ≠ f.payload.length then .error .illegalLength
        else if accepts ⟨⟨f.ip,f.header.port⟩,data⟩ then
          return ⟨rd,extend s.pipeBuf f.payload.length,s.sent ++ [⟨⟨f.ip,f.header.port⟩,data⟩]⟩
        else .error .write) := by
  obtain ⟨rd,hread,hrest⟩ := readFrom_announced f.announces hpending
  refine ⟨rd,hrest,?_,?_⟩
  · intro hlen
    rw [Sending.iterate,hread,Outcome.mapError_ok,Outcome.ok_bind]
    dsimp only
    rw [f.length,if_pos (extend_lt_iff.mpr hlen)]
  · intro hlen
    rw [Sending.iterate,hread,Outcome.mapError_ok,Outcome.ok_bind]
    dsimp only
    rw [f.length,if_neg (fun h => extend_lt_iff.mp h hlen)]

/-- A complete frame that fits is forwarded as one datagram if the socket takes it. -/
theorem iterate_frame (hpending : s.reader.pending = f.octets ++ rest) (hlen : f.payload.length ≤ 2*s.pipeBuf) :
    (accepts f.datagram = true ∧ ∃ rd, rd.pending = rest ∧
      s.iterate accepts = .ok ⟨rd,extend s.pipeBuf f.payload.length,s.sent ++ [f.datagram]⟩) ∨
    (accepts f.datagram = false ∧ s.iterate accepts = .error .write) := by
  rw [ClientFrame.octets,List.append_assoc] at hpending
  obtain ⟨rd₁,hrest₁,-,hfits⟩ := @iterate_announced accepts s f _ hpending
  obtain ⟨rd₂,hread,hrest₂⟩ := readFull_split rfl hrest₁
  rw [hfits hlen,hread]
  cases hacc : accepts f.datagram with
  | true =>
    refine .inl ⟨rfl,rd₂,hrest₂,?_⟩
    simp only [ClientFrame.datagram] at hacc
    simp [hacc,ClientFrame.datagram]
  | false =>
    refine .inr ⟨rfl,?_⟩
    simp only [ClientFrame.datagram] at hacc
    simp [hacc]

theorem iterate_panics (hpending : s.reader.pending = f.octets ++ rest) (hlen : ¬ f.payload.length ≤ 2*s.pipeBuf) :
    s.iterate accepts = .panic .sliceBounds := by
  rw [ClientFrame.octets,List.append_assoc] at hpending
  obtain ⟨rd,-,hpanic,-⟩ := @iterate_announced accepts s f _ hpending
  exact hpanic hlen

/-- The front of a frame ends the loop, unless the length that it announces does. -/
theorem iterate_cut {k : ℕ} (hk : k < f.octets.length) (hpending : s.reader.pending = f.octets.take k) :
    (Fits s.pipeBuf (f.announced k) ∧ ∃ e, s.iterate accepts = .error e) ∨
    (¬ Fits s.pipeBuf (f.announced k) ∧ s.iterate accepts = .panic .sliceBounds) := by
  rw [ClientFrame.octets] at hpending hk
  by_cases hheader : (f.header.writeTo (asSlice f.ip)).length ≤ k
  · rw [List.take_append,List.take_of_length_le hheader] at hpending
    obtain ⟨rd,hrest,hpanic,hfits⟩ := @iterate_announced accepts s f _ hpending
    have hannounced : f.announced k = [f.payload.length] := if_pos hheader
    rw [hannounced]
    by_cases hlen : f.payload.length ≤ 2*s.pipeBuf
    · refine .inl ⟨⟨hlen,trivial⟩,?_⟩
      have hshort : rd.pending.length < f.payload.length := by
        rw [hrest,List.length_take]
        rw [List.length_append] at hk
        omega
      obtain ⟨e,he⟩ := readFull_short hshort
      exact ⟨.data (.read e),by rw [hfits hlen,he]; rfl⟩
    · exact .inr ⟨fun h => hlen h.1,hpanic hlen⟩
  · have hannounced : f.announced k = [] := if_neg hheader
    rw [hannounced]
    refine .inl ⟨trivial,?_⟩
    rw [List.take_append_of_le_length (by omega)] at hpending
    have hmore : (f.header.writeTo (asSlice f.ip)).drop k ≠ [] := by
      rw [Ne,List.drop_eq_nil_iff]
      exact hheader
    obtain ⟨e,he⟩ := readFrom_short f.announces hmore (by rw [hpending,List.take_append_drop])
    exact ⟨.header e,by rw [Sending.iterate,he]; rfl⟩

end Iterate

/-- The loop ends with an error and has forwarded every complete frame. -/
def Forwards (fs : List ClientFrame) (s : Sending) (result : Sending × Outcome SendError Unit) : Prop :=
  (∃ e, result.2 = .error e) ∧ result.1.sent = s.sent ++ fs.map ClientFrame.datagram

theorem not_forwards_panic (fs : List ClientFrame) (s s' : Sending) (p : Panic) : ¬ Forwards fs s (s',.panic p) := by
  rintro ⟨⟨e,h⟩,-⟩
  cases h

theorem loop_forwards_iff (accepts : Datagram → Bool) {rounds : ℕ} {s : Sending} {fs : List ClientFrame}
    {f : ClientFrame} {k : ℕ} (hrounds : fs.length < rounds) (hk : k < f.octets.length)
    (hpending : s.reader.pending = (fs.map ClientFrame.octets).flatten ++ f.octets.take k) :
    Forwards fs s (s.loop accepts rounds) ↔
      Fits s.pipeBuf (fs.map (·.payload.length) ++ f.announced k) ∧ ∀ g ∈ fs, accepts g.datagram = true := by
  induction fs generalizing s rounds with
  | nil =>
    obtain ⟨rounds,rfl⟩ : ∃ n, rounds = n+1 := ⟨rounds-1,by omega⟩
    rw [List.map_nil,List.flatten_nil,List.nil_append] at hpending
    rw [Sending.loop]
    rcases @iterate_cut accepts s f k hk hpending with ⟨hfits,e,he⟩ | ⟨hfits,he⟩
    · rw [he]
      exact iff_of_true ⟨⟨e,rfl⟩,(List.append_nil _).symm⟩ ⟨hfits,by simp⟩
    · rw [he]
      exact iff_of_false (not_forwards_panic _ _ _ _) (fun h => hfits h.1)
  | cons g fs ih =>
    obtain ⟨rounds,rfl⟩ : ∃ n, rounds = n+1 := ⟨rounds-1,by omega⟩
    rw [List.map_cons,List.flatten_cons,List.append_assoc] at hpending
    rw [List.map_cons,List.cons_append,Fits,Sending.loop]
    by_cases hlen : g.payload.length ≤ 2*s.pipeBuf
    · rcases @iterate_frame accepts s g _ hpending hlen with ⟨hacc,rd,hrest,he⟩ | ⟨hacc,he⟩
      · rw [he]
        have htail := ih (s := ⟨rd,extend s.pipeBuf g.payload.length,s.sent ++ [g.datagram]⟩)
          (Nat.lt_of_succ_lt_succ hrounds) hrest
        simp only [Forwards,List.append_assoc,List.singleton_append,List.map_cons,List.forall_mem_cons,hlen,hacc,
          true_and] at htail ⊢
        exact htail
      · rw [he]
        apply iff_of_false
        · rintro ⟨-,hsent⟩
          have := congrArg List.length hsent
          simp at this
        · rintro ⟨-,hall⟩
          rw [hall g List.mem_cons_self] at hacc
          cases hacc
    · rw [iterate_panics hpending hlen]
      exact iff_of_false (not_forwards_panic _ _ _ _) (fun h => hlen h.1.1)

theorem length_le_octets (fs : List ClientFrame) : fs.length ≤ (fs.map ClientFrame.octets).flatten.length := by
  induction fs with
  | nil => exact Nat.zero_le _
  | cons f fs ih =>
    have hf : 0 < f.octets.length := by
      simp only [ClientFrame.octets,UDPHeader.writeTo,List.length_append,UDPHeader.length_encode,udpHeaderSize]
      omega
    rw [List.map_cons,List.flatten_cons,List.length_append,List.length_cons]
    omega

/-- Whatever frames a client sends and wherever it stops, the loop stays in bounds and forwards each
complete frame exactly if a length above twice a size comes only behind one above that size, and the
socket takes them. -/
theorem send_in_bounds_iff_fits (accepts : Datagram → Bool) (fs : List ClientFrame) (f : ClientFrame) (k : ℕ)
    (hk : k < f.octets.length) (rd : Reader UInt8)
    (hpending : rd.pending = (fs.map ClientFrame.octets).flatten ++ f.octets.take k) :
    ((∃ e, (send accepts rd).2 = .error e) ∧ (send accepts rd).1.sent = fs.map ClientFrame.datagram) ↔
      Graded initialBuf (fs.map (·.payload.length) ++ f.announced k) ∧ ∀ g ∈ fs, accepts g.datagram = true := by
  have hrounds : fs.length < rd.pending.length + 1 := by
    have hlen := length_le_octets fs
    rw [hpending,List.length_append]
    omega
  rw [← fits_iff_graded]
  exact loop_forwards_iff accepts (s := ⟨rd,initialBuf,[]⟩) hrounds hk hpending

/-- A frame to the local host with that many zeros. -/
def zeroFrame (n : ℕ) (hn : n < 2^32) : ClientFrame where
  header := ⟨⟨addrTypeIPv4,4,6881⟩,0,UInt32.ofNat n⟩
  ip := .v4 (Vector.replicate 4 127)
  payload := List.replicate n 0
  announces := ⟨.inl rfl,rfl⟩
  length := by rw [UInt32.toNat_ofNat_of_lt' hn,List.length_replicate]

/-- The first frame is longer than twice the first buffer. -/
theorem first_frame_panics :
    (zeroFrame 8193 (by decide)).payload.length = 8193 ∧
    (send (fun _ => true) (.source [(zeroFrame 8193 (by decide)).octets])).2 = .panic .sliceBounds := by
  have hlen : (zeroFrame 8193 (by decide)).payload.length = 8193 := List.length_replicate
  refine ⟨hlen,?_⟩
  have hpending : (Reader.source [(zeroFrame 8193 (by decide)).octets]).pending =
      (zeroFrame 8193 (by decide)).octets ++ [] := rfl
  rw [send,Sending.loop,iterate_panics hpending (by rw [hlen]; decide)]

/-- A frame of twice the first buffer, and one of twice the second. -/
theorem growing_frames_forwarded :
    ((∃ e, (send (fun _ => true) (.source [(zeroFrame 8192 (by decide)).octets,(zeroFrame 16384 (by decide)).octets])).2
        = .error e) ∧
      (send (fun _ => true) (.source [(zeroFrame 8192 (by decide)).octets,(zeroFrame 16384 (by decide)).octets])).1.sent
        = [(zeroFrame 8192 (by decide)).datagram,(zeroFrame 16384 (by decide)).datagram]) := by
  have hlen : ∀ n hn, (zeroFrame n hn).payload.length = n := fun n hn => List.length_replicate
  refine (send_in_bounds_iff_fits (fun _ => true) [zeroFrame 8192 (by decide),zeroFrame 16384 (by decide)]
    (zeroFrame 0 (by decide)) 0 (by decide) _ ?_).mpr ⟨?_,fun _ _ => rfl⟩
  · simp [Reader.pending]
  · rw [← fits_iff_graded]
    simp only [List.map_cons,List.map_nil,hlen]
    decide

end Send

end DhtOcean.Proxy
