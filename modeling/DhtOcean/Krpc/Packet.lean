import DhtOcean.Bencode.Safety

/-! # Packets and the decoding loop

A packet keeps the datagram it came from, and the byte strings of its data are
views of that datagram. The decoding loop drops what it cannot parse and has no
recovery, so a panic on one datagram ends the loop and everything behind it.
-/
namespace DhtOcean.Krpc
open Foundation Bencode

/-- `data` is empty until `decode` fills it: reading a nil map finds nothing. -/
structure Packet (Addr : Type) where
  buf : Bytes
  data : Dict Slice
  addr : Addr

inductive PacketError
  | bencode (e : DecodeError)
  | illegalPacket
  deriving DecidableEq, Repr

variable {Addr : Type}

def newPacketFromBuffer (buf : Bytes) (addr : Addr) : Packet Addr := ⟨buf,[],addr⟩

def Packet.decode (p : Packet Addr) : Outcome PacketError (Packet Addr) :=
  match bDecode p.buf with
  | .ok (.map m) => .ok { p with data := m }
  | .ok _ => .error .illegalPacket
  | .error e => .error (.bencode e)
  | .panic q => .panic q
  | .hang => .hang

/-- The packets that the loop passes on, from those it takes off the queue. -/
def decodeLoop : List (Packet Addr) → Outcome Empty (List (Packet Addr))
  | [] => .ok []
  | p :: ps =>
    match p.decode with
    | .ok p' => do
      let rest ← decodeLoop ps
      return p' :: rest
    | .error _ => decodeLoop ps
    | .panic q => .panic q
    | .hang => .hang

theorem Packet.decode_eq_panic_iff (p : Packet Addr) (q : Panic) :
    p.decode = .panic q ↔ q = .typeAssertion ∧ KeyClash p.buf := by
  rw [← bDecode_eq_panic_iff,Packet.decode]
  split <;> simp_all

theorem Packet.decode_ne_hang (p : Packet Addr) : p.decode ≠ .hang := by
  have h := bDecode_ne_hang p.buf
  unfold Packet.decode
  split <;> simp_all

theorem Packet.decode_returns_iff (p : Packet Addr) : p.decode.Returns ↔ ¬ KeyClash p.buf := by
  simp [Outcome.returns_iff,Outcome.Panics,p.decode_eq_panic_iff,p.decode_ne_hang]

/-- The data of a decoded packet are views of its datagram, lists and maps of them, and integers. -/
theorem Packet.decode_produced {p p' : Packet Addr} (h : p.decode = .ok p') :
    Produced p'.buf.length (.map p'.data) := by
  unfold Packet.decode at h
  split at h
  · rename_i m hm
    obtain ⟨⟨v,off⟩,hv,hr⟩ := Outcome.bind_eq_ok.mp hm
    cases hr
    cases h
    exact decodeAny_produced hv
  all_goals cases h

/-- The loop goes on after every datagram that decoding returns from. -/
theorem decodeLoop_returns_iff (ps : List (Packet Addr)) :
    (decodeLoop ps).Returns ↔ ∀ p ∈ ps, ¬ KeyClash p.buf := by
  induction ps with
  | nil => simp [decodeLoop,Outcome.Returns]
  | cons p ps ih =>
    rw [List.forall_mem_cons,← ih,← p.decode_returns_iff,decodeLoop]
    cases p.decode with
    | ok p' => cases decodeLoop ps <;> simp [Outcome.Returns]
    | error e => simp [Outcome.Returns]
    | panic q => simp [Outcome.Returns]
    | hang => simp [Outcome.Returns]

/-- A key that is not a string ends the loop; nothing else does, and nothing else
makes decoding panic. -/
theorem decoding_returns_iff_no_clash :
    (∀ buf, (bDecode buf).Returns ↔ ¬ KeyClash buf) ∧
    (∀ buf q, bDecode buf = .panic q → q = .typeAssertion) ∧
    (∀ p : Packet Addr, p.decode.Returns ↔ ¬ KeyClash p.buf) ∧
    (∀ ps : List (Packet Addr), (decodeLoop ps).Returns ↔ ∀ p ∈ ps, ¬ KeyClash p.buf) := by
  refine ⟨bDecode_returns_iff,?_,Packet.decode_returns_iff,decodeLoop_returns_iff⟩
  intro buf q h
  exact (bDecode_eq_panic_iff.mp h).1

/-- The datagram `di1ei2ee` has an integer for a key. -/
theorem integer_key_panics :
    (bDecode (ascii "di1ei2ee")).Panics ∧
    (newPacketFromBuffer (ascii "di1ei2ee") ()).decode.Panics ∧
    (decodeLoop [newPacketFromBuffer (ascii "di1ei2ee") (),newPacketFromBuffer (ascii "de") ()]).Panics := by
  decide +kernel

end DhtOcean.Krpc
