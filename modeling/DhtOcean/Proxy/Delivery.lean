import DhtOcean.Foundation.Transition
import DhtOcean.Foundation.Writer
import DhtOcean.Proxy.Framing

/-! # What reaches the proxy connection

Both ends frame their datagrams into a buffered writer and neither flushes it.
Nothing is lost or reordered on the way, but the end of the stream stays in the
buffer unless the last part of a frame is long enough to push itself through.
-/
namespace DhtOcean.Proxy
open Foundation

/-- The writing end: the header in use and the buffered writer. -/
structure Outgoing where
  header : UDPHeader
  writer : Writer UInt8

/-- `UDPConn.WriteTo` for an address that parses, and the same part of `UDPHandler.receive`:
header, address and payload in three writes. -/
def Outgoing.send (u : Outgoing) (d : Datagram) : Option Outgoing := do
  let h := { u.header with length := UInt32.ofNat d.payload.length }
  let (addrHeader,rawAddr) := setAddr h.toAddrHeader d.addr
  let h := { h with toAddrHeader := addrHeader }
  let writer ← u.writer.write h.encode
  let writer ← writer.write rawAddr
  let writer ← writer.write d.payload
  return ⟨h,writer⟩

/-- The state of `UDPHandler.receive`, with the length of its read buffer. -/
structure Receiving where
  outgoing : Outgoing
  readBuf : ℕ

/-- One iteration. A packet that fills the buffer is dropped, and the buffer doubled. -/
def Receiving.receive (r : Receiving) (d : Datagram) : Option Receiving :=
  let n := min d.payload.length r.readBuf
  if n = r.readBuf then some { r with readBuf := 2*r.readBuf }
  else do
    let outgoing ← r.outgoing.send ⟨d.addr,d.payload.take n⟩
    return { r with outgoing := outgoing }

/-- The packets that are not dropped. -/
def kept : ℕ → List Datagram → List Datagram
  | _, [] => []
  | readBuf, d :: ds => if readBuf ≤ d.payload.length then kept (2*readBuf) ds else d :: kept readBuf ds

/-- How much of a header and an address of `a` octets an empty buffer keeps back. -/
def carried (size a : ℕ) : ℕ :=
  if size < udpHeaderSize then if a ≤ size then a else 0
  else if udpHeaderSize + a ≤ size then udpHeaderSize + a
  else if udpHeaderSize + a ≤ 2*size then udpHeaderSize + a - size
  else 0

/-- The frame is long enough to pass the buffer. With room for header and address, this takes a
payload that exceeds what the buffer can hold after being filled up once. -/
def PassesThrough (size : ℕ) (d : Datagram) : Prop :=
  if d.payload.length = 0 then carried size (asSlice d.addr.ip).length = 0
  else if carried size (asSlice d.addr.ip).length = 0 then size < d.payload.length
  else 2*size < carried size (asSlice d.addr.ip).length + d.payload.length

theorem carried_eq (size a : ℕ) :
    Writer.held size (Writer.held size 0 udpHeaderSize) a = carried size a := by
  by_cases hs : size < udpHeaderSize
  · have hfirst : Writer.held size 0 udpHeaderSize = 0 := by simp [Writer.held,hs]
    rw [hfirst,carried,if_pos hs]
    simp [Writer.held]
  · have hfirst : Writer.held size 0 udpHeaderSize = udpHeaderSize := by
      simp only [Writer.held,Nat.zero_add]
      exact if_pos (Nat.not_lt.mp hs)
    rw [hfirst,carried,if_neg hs,Writer.held,if_neg (show udpHeaderSize ≠ 0 by decide)]

theorem carried_le (size a : ℕ) : carried size a ≤ size := by
  rw [← carried_eq]
  exact Writer.held_le

section Send
variable {u u' : Outgoing} {d : Datagram}

theorem send_eq (u : Outgoing) (d : Datagram) : u.send d =
    (do
      let writer ← u.writer.write (frame u.header d).1.encode
      let writer ← writer.write (asSlice d.addr.ip)
      let writer ← writer.write d.payload
      return ⟨(frame u.header d).1,writer⟩) := rfl

theorem frame_eq (h : UDPHeader) (d : Datagram) :
    (frame h d).2 = (frame h d).1.encode ++ asSlice d.addr.ip ++ d.payload := rfl

/-- The three writes of a frame, taken together. -/
theorem send_spec (h : u.send d = some u') :
    u'.header = (frame u.header d).1 ∧ u'.writer.size = u.writer.size ∧
    u'.writer.sink.out ++ u'.writer.buf = u.writer.sink.out ++ u.writer.buf ++ (frame u.header d).2 ∧
    u'.writer.buf.length = Writer.held u.writer.size (Writer.held u.writer.size
      (Writer.held u.writer.size u.writer.buf.length udpHeaderSize) (asSlice d.addr.ip).length) d.payload.length := by
  rw [send_eq] at h
  obtain ⟨w₁,h₁,h⟩ := Option.bind_eq_some_iff.mp h
  obtain ⟨w₂,h₂,h⟩ := Option.bind_eq_some_iff.mp h
  obtain ⟨w₃,h₃,h⟩ := Option.bind_eq_some_iff.mp h
  obtain rfl := Option.some.inj h
  obtain ⟨hs₁,ho₁,hb₁⟩ := Writer.write_spec h₁
  obtain ⟨hs₂,ho₂,hb₂⟩ := Writer.write_spec h₂
  obtain ⟨hs₃,ho₃,hb₃⟩ := Writer.write_spec h₃
  refine ⟨rfl,by rw [hs₃,hs₂,hs₁],?_,?_⟩
  · rw [ho₃,ho₂,ho₁,frame_eq]
    simp only [List.append_assoc]
  · rw [hb₃,hb₂,hb₁,hs₂,hs₁,UDPHeader.length_encode]

/-- From an empty buffer, exactly the frames that pass through leave it empty. -/
theorem send_empty_iff (hempty : u.writer.buf = []) (h : u.send d = some u') :
    u'.writer.buf = [] ↔ PassesThrough u.writer.size d := by
  obtain ⟨-,-,-,hlen⟩ := send_spec h
  rw [hempty,List.length_nil,carried_eq] at hlen
  rw [← List.length_eq_zero_iff,hlen,Writer.held_eq_zero_iff (carried_le _ _)]
  rfl

end Send

/-- After each of the calls everything framed so far is at the sink. -/
def AllThrough (u : Outgoing) (ds : List Datagram) : Prop :=
  ∀ ds₁ ds₂ u₁, ds = ds₁ ++ ds₂ → run Outgoing.send u ds₁ = some u₁ →
    u₁.writer.sink.out = u.writer.sink.out ++ frames u.header ds₁

section Run
variable {u u' : Outgoing} {ds : List Datagram}

/-- No sequence of calls loses or reorders anything. -/
theorem run_send_stream (h : run Outgoing.send u ds = some u') :
    u'.writer.size = u.writer.size ∧
    u'.writer.sink.out ++ u'.writer.buf = u.writer.sink.out ++ u.writer.buf ++ frames u.header ds := by
  induction ds generalizing u with
  | nil =>
    cases h
    exact ⟨rfl,(List.append_nil _).symm⟩
  | cons d ds ih =>
    obtain ⟨u₁,h₁,h⟩ := Option.bind_eq_some_iff.mp h
    obtain ⟨hheader,hsize,hout,-⟩ := send_spec h₁
    obtain ⟨hsize',hout'⟩ := ih h
    refine ⟨hsize'.trans hsize,?_⟩
    rw [hout',hout,hheader,List.append_assoc]
    rfl

/-- What is at the sink is everything exactly if the buffer is empty. -/
theorem run_send_through_iff (hempty : u.writer.buf = []) (h : run Outgoing.send u ds = some u') :
    u'.writer.sink.out = u.writer.sink.out ++ frames u.header ds ↔ u'.writer.buf = [] := by
  have hout := (run_send_stream h).2
  rw [hempty,List.append_nil] at hout
  rw [← hout]
  constructor
  · intro he
    exact List.self_eq_append_right.mp he
  · intro hbuf
    rw [hbuf,List.append_nil]

theorem run_send_empty (hempty : u.writer.buf = []) (hpass : ∀ d ∈ ds, PassesThrough u.writer.size d)
    (h : run Outgoing.send u ds = some u') : u'.writer.buf = [] := by
  induction ds generalizing u with
  | nil =>
    cases h
    exact hempty
  | cons d ds ih =>
    obtain ⟨u₁,h₁,h⟩ := Option.bind_eq_some_iff.mp h
    have hsize := (send_spec h₁).2.1
    have hempty₁ := (send_empty_iff hempty h₁).mpr (hpass d List.mem_cons_self)
    refine ih hempty₁ ?_ h
    intro d' hd'
    rw [hsize]
    exact hpass d' (List.mem_cons_of_mem _ hd')

/-- Everything is through after each call exactly if every frame passes the buffer. -/
theorem allThrough_iff (hempty : u.writer.buf = []) (h : run Outgoing.send u ds = some u') :
    AllThrough u ds ↔ ∀ d ∈ ds, PassesThrough u.writer.size d := by
  constructor
  · intro hall d hd
    obtain ⟨ds₁,ds₂,rfl⟩ := List.append_of_mem hd
    obtain ⟨u₁,h₁,h₂⟩ := run_append_eq_some.mp h
    obtain ⟨u₂,hd₂,-⟩ := Option.bind_eq_some_iff.mp h₂
    have hsnoc : run Outgoing.send u (ds₁ ++ [d]) = some u₂ :=
      run_append_eq_some.mpr ⟨u₁,h₁,by simp [run,hd₂]⟩
    have hbefore := (run_send_through_iff hempty h₁).mp (hall ds₁ _ u₁ rfl h₁)
    have hafter := (run_send_through_iff hempty hsnoc).mp (hall (ds₁ ++ [d]) ds₂ u₂ (by simp) hsnoc)
    rw [← (run_send_stream h₁).1]
    exact (send_empty_iff hbefore hd₂).mp hafter
  · rintro hpass ds₁ ds₂ u₁ rfl h₁
    apply (run_send_through_iff hempty h₁).mpr
    exact run_send_empty hempty (fun d hd => hpass d (List.mem_append_left _ hd)) h₁

end Run

/-- After each iteration everything framed so far is at the sink. -/
def AllReceived (r : Receiving) (ds : List Datagram) : Prop :=
  ∀ ds₁ ds₂ r₁, ds = ds₁ ++ ds₂ → run Receiving.receive r ds₁ = some r₁ →
    r₁.outgoing.writer.sink.out = r.outgoing.writer.sink.out ++ frames r.outgoing.header (kept r.readBuf ds₁)

section Receive
variable {r r' : Receiving} {d : Datagram} {ds : List Datagram}

theorem receive_cases (h : r.receive d = some r') :
    (r.readBuf ≤ d.payload.length ∧ r' = { r with readBuf := 2*r.readBuf }) ∨
    (¬ r.readBuf ≤ d.payload.length ∧ ∃ u, r.outgoing.send d = some u ∧ r' = { r with outgoing := u }) := by
  unfold Receiving.receive at h
  dsimp only at h
  split at h
  · exact .inl ⟨by omega,(Option.some.inj h).symm⟩
  · have hmin : min d.payload.length r.readBuf = d.payload.length := by omega
    rw [hmin,List.take_length] at h
    obtain ⟨u,hu,h⟩ := Option.bind_eq_some_iff.mp h
    exact .inr ⟨by omega,u,hu,(Option.some.inj h).symm⟩

/-- The loop sends the packets that it does not drop. -/
theorem run_receive (h : run Receiving.receive r ds = some r') :
    run Outgoing.send r.outgoing (kept r.readBuf ds) = some r'.outgoing := by
  induction ds generalizing r with
  | nil =>
    cases h
    rfl
  | cons d ds ih =>
    obtain ⟨r₁,h₁,h⟩ := Option.bind_eq_some_iff.mp h
    rcases receive_cases h₁ with ⟨hlen,rfl⟩ | ⟨hlen,u,hu,rfl⟩
    · rw [kept,if_pos hlen]
      exact ih h
    · rw [kept,if_neg hlen,run,hu]
      exact ih h

theorem kept_append (readBuf : ℕ) (ds₁ ds₂ : List Datagram) :
    ∃ readBuf', kept readBuf (ds₁ ++ ds₂) = kept readBuf ds₁ ++ kept readBuf' ds₂ := by
  induction ds₁ generalizing readBuf with
  | nil => exact ⟨readBuf,rfl⟩
  | cons d ds₁ ih =>
    rw [List.cons_append,kept,kept]
    split
    · exact ih _
    · obtain ⟨readBuf',h⟩ := ih readBuf
      exact ⟨readBuf',by rw [h,List.cons_append]⟩

/-- Whatever was kept first was kept from a first part of the packets. -/
theorem exists_kept {readBuf : ℕ} {ks ks' : List Datagram} (h : kept readBuf ds = ks ++ ks') :
    ∃ ds₁ ds₂, ds = ds₁ ++ ds₂ ∧ kept readBuf ds₁ = ks := by
  induction ds generalizing readBuf ks with
  | nil => exact ⟨[],[],rfl,(List.append_eq_nil_iff.mp h.symm).1.symm⟩
  | cons d ds ih =>
    cases ks with
    | nil => exact ⟨[],d :: ds,rfl,rfl⟩
    | cons k ks =>
      rw [kept] at h
      split at h
      · rename_i hlen
        obtain ⟨ds₁,ds₂,rfl,hk⟩ := ih h
        exact ⟨d :: ds₁,ds₂,rfl,by rw [kept,if_pos hlen,hk]⟩
      · rename_i hlen
        rw [List.cons_append] at h
        obtain ⟨rfl,htail⟩ := List.cons.inj h
        obtain ⟨ds₁,ds₂,rfl,hk⟩ := ih htail
        exact ⟨d :: ds₁,ds₂,rfl,by rw [kept,if_neg hlen,hk]⟩

theorem allReceived_iff (h : run Receiving.receive r ds = some r') :
    AllReceived r ds ↔ AllThrough r.outgoing (kept r.readBuf ds) := by
  constructor
  · intro hall ks ks' u₁ hks hu₁
    obtain ⟨ds₁,ds₂,rfl,rfl⟩ := exists_kept hks
    obtain ⟨r₁,h₁,-⟩ := run_append_eq_some.mp h
    obtain rfl : r₁.outgoing = u₁ := Option.some.inj ((run_receive h₁).symm.trans hu₁)
    exact hall ds₁ ds₂ r₁ rfl h₁
  · rintro hall ds₁ ds₂ r₁ rfl h₁
    obtain ⟨readBuf',hk⟩ := kept_append r.readBuf ds₁ ds₂
    exact hall _ _ r₁.outgoing hk (run_receive h₁)

end Receive

/-- The calls that return leave nothing pending, each of them, exactly if every frame is long enough
to pass the buffer. The same holds of the packets that the handler takes in and does not drop. -/
theorem nothing_pending_iff_passesThrough (sink : Sink UInt8) (bufSize : ℤ) (header : UDPHeader) (readBuf : ℕ) :
    (∀ ds u, run Outgoing.send ⟨header,Writer.newWriterSize sink bufSize⟩ ds = some u →
      (AllThrough ⟨header,Writer.newWriterSize sink bufSize⟩ ds ↔
        ∀ d ∈ ds, PassesThrough (Writer.newWriterSize sink bufSize).size d)) ∧
    (∀ ds r, run Receiving.receive ⟨⟨header,Writer.newWriterSize sink bufSize⟩,readBuf⟩ ds = some r →
      (AllReceived ⟨⟨header,Writer.newWriterSize sink bufSize⟩,readBuf⟩ ds ↔
        ∀ d ∈ kept readBuf ds, PassesThrough (Writer.newWriterSize sink bufSize).size d)) := by
  constructor
  · intro ds u h
    exact allThrough_iff rfl h
  · intro ds r h
    rw [allReceived_iff h]
    exact allThrough_iff rfl (run_receive h)

/-- A connection that takes every write. -/
def openSink : Sink UInt8 := ⟨fun _ => true,0,[]⟩

theorem localhost_size : (#[127,0,0,1] : Array UInt8).size = 4 := rfl

/-- One short datagram; a buffer size of zero stands for the default. -/
def shortDatagram : Datagram := ⟨⟨.v4 ⟨#[127,0,0,1],localhost_size⟩,54322⟩,ascii "foo"⟩

theorem shortDatagram_stays_pending :
    (∃ u, run Outgoing.send ⟨⟨⟨0,0,0⟩,0,0⟩,Writer.newWriterSize openSink 0⟩ [shortDatagram] = some u ∧
      u.writer.sink.out = [] ∧ u.writer.buf.length = 16) ∧
    (∃ r, run Receiving.receive ⟨⟨⟨⟨0,0,0⟩,0,0⟩,Writer.newWriterSize openSink 0⟩,4096⟩ [shortDatagram] = some r ∧
      r.outgoing.writer.sink.out = [] ∧ r.outgoing.writer.buf.length = 16) :=
  ⟨⟨_,rfl,rfl,rfl⟩,⟨_,rfl,rfl,rfl⟩⟩

end DhtOcean.Proxy
