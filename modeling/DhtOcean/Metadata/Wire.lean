import DhtOcean.Bencode.Decode
import DhtOcean.Bencode.Encode
import DhtOcean.Foundation.BigEndian

/-! # Messages of the peer protocol

A connection is the stream of octets that the peer sends before it closes or
falls silent, and whether each write to it succeeds. Messages are framed by four
octets with their length. Reading an extension message skips keep-alives and all
other messages; every frame takes octets off the stream, so the loop ends.
-/
namespace DhtOcean.Metadata
open Foundation Bencode

inductive BtError
  | io
  | emptyProtocolLength
  | notBtProtocol
  | handshakeFailed
  | notExtHandshake (id : UInt8)
  | encode (e : EncodeError)
  | decode (e : DecodeError)
  | illegalFormat
  | isExtHandshake
  | wrongMsgType
  | pieceTooLong
  | corruptTorrent
  /-- A panic that the deferred function of `GetMetadata` has turned into an error. -/
  | recovered
  deriving DecidableEq, Repr

/-- `writes n` tells whether the write after `n` others succeeds. -/
structure Conn where
  input : Bytes
  writes : ℕ → Bool
  written : List Bytes

abbrev Session := Outcome BtError

/-- `io.ReadFull` for `n` octets: a stream that ends before them is an error. -/
def read (n : ℕ) (c : Conn) : Session (Bytes × Conn) :=
  if n ≤ c.input.length then .ok (c.input.take n,{ c with input := c.input.drop n }) else .error .io

def write (data : Bytes) (c : Conn) : Session Conn :=
  if c.writes c.written.length then .ok { c with written := c.written ++ [data] } else .error .io

def sendMessage (msg : Bytes) (c : Conn) : Session Conn := do
  let c ← write (beBytes 4 msg.length) c
  write msg c

def readMessage (c : Conn) : Session (Bytes × Conn) := do
  let (msgLength,c) ← read 4 c
  read (beValue msgLength) c

def btMsgID : UInt8 := 20

def readExtMessageFuel : ℕ → Conn → Session (Bytes × Conn)
  | 0, _ => .hang
  | fuel+1, c => do
    let (msg,c) ← readMessage c
    match msg with
    | [] => readExtMessageFuel fuel c
    | id :: body => if id = btMsgID then .ok (body,c) else readExtMessageFuel fuel c

def readExtMessage (c : Conn) : Session (Bytes × Conn) := readExtMessageFuel (c.input.length + 1) c

theorem read_eq_ok {n : ℕ} {c c' : Conn} {b : Bytes} (h : read n c = .ok (b,c')) :
    b.length = n ∧ c'.input.length + n = c.input.length := by
  unfold read at h
  split at h
  · cases h
    simp only [List.length_take,List.length_drop]
    omega
  · cases h

theorem read_ne_hang (n : ℕ) (c : Conn) : read n c ≠ .hang := by
  unfold read
  split <;> simp

theorem write_ne_hang (data : Bytes) (c : Conn) : write data c ≠ .hang := by
  unfold write
  split <;> simp

theorem sendMessage_ne_hang (msg : Bytes) (c : Conn) : sendMessage msg c ≠ .hang := by
  simp [sendMessage,Outcome.bind_eq_hang,write_ne_hang]

theorem readMessage_ne_hang (c : Conn) : readMessage c ≠ .hang := by
  simp [readMessage,Outcome.bind_eq_hang,read_ne_hang]

theorem readMessage_consumes {c c' : Conn} {msg : Bytes} (h : readMessage c = .ok (msg,c')) :
    c'.input.length < c.input.length := by
  obtain ⟨⟨lenB,c₁⟩,h₁,h₂⟩ := Outcome.bind_eq_ok.mp h
  have := (read_eq_ok h₁).2
  have := (read_eq_ok h₂).2
  omega

theorem readExtMessageFuel_ne_hang {fuel : ℕ} {c : Conn} (h : c.input.length < fuel) :
    readExtMessageFuel fuel c ≠ .hang := by
  induction fuel generalizing c with
  | zero => omega
  | succ fuel ih =>
    rw [readExtMessageFuel]
    cases hm : readMessage c with
    | ok r =>
      obtain ⟨msg,c'⟩ := r
      have hlt := readMessage_consumes hm
      have hrest := ih (c := c') (by omega)
      rw [Outcome.ok_bind]
      cases msg with
      | nil => exact hrest
      | cons id body =>
        dsimp only
        split
        · simp
        · exact hrest
    | error e => simp
    | panic p => simp
    | hang => exact absurd hm (readMessage_ne_hang c)

theorem readExtMessage_ne_hang (c : Conn) : readExtMessage c ≠ .hang :=
  readExtMessageFuel_ne_hang (Nat.lt_succ_self _)

def frame (msg : Bytes) : Bytes := beBytes 4 msg.length ++ msg

def frames (msgs : List Bytes) : Bytes := msgs.flatMap frame

theorem read_append {b rest : Bytes} {c : Conn} (h : c.input = b ++ rest) :
    read b.length c = .ok (b,{ c with input := rest }) := by
  simp [read,h]

/-- A frame is read as its message. -/
theorem readMessage_frame {msg rest : Bytes} {c : Conn} (hm : msg.length < 2^32)
    (h : c.input = frame msg ++ rest) : readMessage c = .ok (msg,{ c with input := rest }) := by
  have h₁ : c.input = beBytes 4 msg.length ++ (msg ++ rest) := by rw [h,frame,List.append_assoc]
  have hr := read_append h₁
  rw [length_beBytes] at hr
  rw [readMessage,hr,Outcome.ok_bind]
  dsimp only
  rw [beValue_beBytes (by omega)]
  exact read_append rfl

/-- The bodies of the extension messages among others. -/
def extMessages (msgs : List Bytes) : List Bytes :=
  msgs.filterMap fun msg =>
    match msg with
    | [] => none
    | id :: body => if id = btMsgID then some body else none

/-- The next extension message is found behind whatever precedes it. -/
theorem readExtMessageFuel_frames {msgs : List Bytes} {body rest : Bytes} {bodies : List Bytes} {fuel : ℕ}
    {c : Conn} (hshort : ∀ msg ∈ msgs, msg.length < 2^32) (hext : extMessages msgs = body :: bodies)
    (h : c.input = frames msgs ++ rest) (hfuel : msgs.length ≤ fuel) :
    ∃ msgs', (∀ msg ∈ msgs', msg.length < 2^32) ∧ extMessages msgs' = bodies ∧
      readExtMessageFuel fuel c = .ok (body,{ c with input := frames msgs' ++ rest }) := by
  induction msgs generalizing fuel c with
  | nil => simp [extMessages] at hext
  | cons msg msgs ih =>
    cases fuel with
    | zero => simp at hfuel
    | succ fuel =>
      have hmsg := hshort msg List.mem_cons_self
      have hrest : ∀ m ∈ msgs, m.length < 2^32 := fun m hm => hshort m (List.mem_cons_of_mem _ hm)
      have h₁ : c.input = frame msg ++ (frames msgs ++ rest) := by
        rw [h,frames,List.flatMap_cons,List.append_assoc]
        rfl
      rw [List.length_cons] at hfuel
      have hskip (hnone : extMessages (msg :: msgs) = extMessages msgs) :=
        ih (c := { c with input := frames msgs ++ rest }) hrest (hnone ▸ hext) rfl
          (show msgs.length ≤ fuel by omega)
      rw [readExtMessageFuel,readMessage_frame hmsg h₁,Outcome.ok_bind]
      cases msg with
      | nil => exact hskip rfl
      | cons id b =>
        dsimp only
        by_cases hid : id = btMsgID
        · rw [if_pos hid]
          simp only [extMessages,List.filterMap_cons,if_pos hid,List.cons.injEq] at hext
          obtain ⟨rfl,hb⟩ := hext
          exact ⟨msgs,hrest,hb,rfl⟩
        · rw [if_neg hid]
          exact hskip (by simp [extMessages,hid])

theorem length_le_frames (msgs : List Bytes) : msgs.length ≤ (frames msgs).length := by
  induction msgs with
  | nil => simp
  | cons msg msgs ih =>
    simp only [frames,List.flatMap_cons,List.length_append,List.length_cons,frame,length_beBytes] at ih ⊢
    omega

theorem readExtMessage_frames {msgs : List Bytes} {body rest : Bytes} {bodies : List Bytes} {c : Conn}
    (hshort : ∀ msg ∈ msgs, msg.length < 2^32) (hext : extMessages msgs = body :: bodies)
    (h : c.input = frames msgs ++ rest) :
    ∃ msgs', (∀ msg ∈ msgs', msg.length < 2^32) ∧ extMessages msgs' = bodies ∧
      readExtMessage c = .ok (body,{ c with input := frames msgs' ++ rest }) := by
  have hle := length_le_frames msgs
  have hin := congrArg List.length h
  rw [List.length_append] at hin
  exact readExtMessageFuel_frames hshort hext h (by omega)

end DhtOcean.Metadata
