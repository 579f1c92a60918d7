import DhtOcean.Bencode.Sound
import DhtOcean.Metadata.Assembly

/-! # Metadata from an honest peer

An honest peer sends a handshake, an extension handshake and the pieces of the
metadata in any order, with other messages anywhere between them. Fetching then
gives the metadata and its dictionary, whatever follows.
-/
namespace DhtOcean.Metadata
open Foundation Bencode

/-- A dictionary with its encoding, canonical or not. -/
structure Encoded where
  word : Bytes
  dict : List (Bytes × Datum)
  valid : Word word (.dict dict)

/-- What an honest peer sends for the metadata `m`. -/
structure HonestStream (m : Bytes) where
  reserved : Bytes
  reserved_length : reserved.length = 8
  extension_bit : ∃ flags, reserved[5]? = some flags ∧ 0 < flags &&& 0x10
  ids : Bytes
  ids_length : ids.length = 40
  ext : Encoded
  ext_size : ext.dict.lookup (ascii "metadata_size") = some (.int (Int64.ofNat m.length))
  utMetadata : Int64
  ext_id : ∃ supported, ext.dict.lookup (ascii "m") = some (.dict supported) ∧
    supported.lookup (ascii "ut_metadata") = some (.int utMetadata)
  extID : UInt8
  extID_ne : extID ≠ 0
  order : List ℕ
  order_perm : order.Perm (List.range (pieceCount m))
  header : ℕ → Encoded
  header_type : ∀ i ∈ order, (header i).dict.lookup (ascii "msg_type") = some (.int 1)
  header_piece : ∀ i ∈ order, (header i).dict.lookup (ascii "piece") = some (.int (Int64.ofNat i))
  messages : List Bytes
  messages_short : ∀ msg ∈ messages, msg.length < 2^32
  messages_ext : extMessages messages =
    (extHandshakeID :: ext.word) :: order.map fun i => extID :: (header i).word ++ pieceOf m i
  trailing : Bytes

def HonestStream.input {m : Bytes} (s : HonestStream m) : Bytes :=
  UInt8.ofNat btProtocol.length :: btProtocol ++ s.reserved ++ s.ids ++ (frames s.messages ++ s.trailing)

/-- A connection on which every write succeeds. -/
def Conn.Writable (c : Conn) : Prop := ∀ n, c.writes n = true

theorem write_ok {c : Conn} (hc : c.Writable) (data : Bytes) :
    write data c = .ok { c with written := c.written ++ [data] } := by
  simp [write,hc c.written.length]

theorem sendExt_ok {c : Conn} {dict : Dict Bytes} (hc : c.Writable) (id : UInt8) (hd : Bencodable (.map dict)) :
    ∃ written, sendExt id dict c = .ok { c with written := written } := by
  obtain ⟨w,d,hw,-,-⟩ := hd.written
  have hc' : ({ c with written := c.written ++ [beBytes 4 (btMsgID :: id :: w).length] } : Conn).Writable := hc
  refine ⟨c.written ++ [beBytes 4 (btMsgID :: id :: w).length] ++ [btMsgID :: id :: w],?_⟩
  simp only [sendExt,bEncode,hw,Outcome.ofExcept,Outcome.mapError_ok,Outcome.ok_bind,sendMessage,write_ok hc,
    write_ok hc']

theorem extRequest_bencodable : Bencodable (.map [(ascii "m",.map [(ascii "ut_metadata",.int 1)])]) := by
  refine .map (by decide) (by decide) ?_
  simp only [List.mem_singleton,forall_eq]
  refine .map (by decide) (by decide) ?_
  simp only [List.mem_singleton,forall_eq]
  exact .int 1

theorem pieceRequest_bencodable (n : Int64) :
    Bencodable (.map [(ascii "msg_type",.int 0),(ascii "piece",.int n)]) := by
  have hkeys : ([ascii "msg_type",ascii "piece"] : List Bytes).Nodup := by decide
  refine .map hkeys ?_ ?_
  all_goals simp only [List.mem_cons,List.not_mem_nil,or_false,forall_eq_or_imp,forall_eq]
  · decide
  · exact ⟨.int 0,.int n⟩

theorem requestLoop_ok {c : Conn} (hc : c.Writable) (ext : ExtHandshakeResult) (n i : ℕ) :
    ∃ written, requestLoop ext n i c = .ok { c with written := written } := by
  induction n generalizing i c with
  | zero => exact ⟨c.written,rfl⟩
  | succ n ih =>
    obtain ⟨w,hw⟩ := sendExt_ok hc ext.utMetadata.toUInt64.toUInt8 (pieceRequest_bencodable (Int64.ofNat i))
    have hc' : ({ c with written := w } : Conn).Writable := hc
    obtain ⟨w',hw'⟩ := ih hc' (i+1)
    refine ⟨w',?_⟩
    rw [requestLoop,requestPiece,hw,Outcome.ok_bind,hw']

/-- An integer entry of an encoded dictionary is read back by name. -/
theorem Encoded.getInt_eq {e : Encoded} {m : Dict Slice} {size : ℕ} {contents : Slice → Bytes} {key : Bytes}
    {n : Int64} (hp : Produced size (.map m)) (hm : (Value.map m).denote contents = some (.dict e.dict))
    (hkey : key.splitOn '.'.toUInt8 = [key]) (hn : e.dict.lookup key = some (.int n)) :
    getInt m key = (n,true) := by
  obtain ⟨v,hv,hd⟩ := hp.lookup_denote hm hn
  rw [Value.denote_int contents hd] at hv
  exact getInt_of_getByPath ((getByPath_one hkey).trans hv)

section Stream
variable {m : Bytes} (s : HonestStream m) {c : Conn}

theorem handshake_honest (hc : c.Writable) (infoHash peerID : Bytes) (hin : c.input = s.input) :
    ∃ written, handshake infoHash peerID c =
      .ok { c with input := frames s.messages ++ s.trailing, written := written } := by
  obtain ⟨flags,hflags,hbit⟩ := s.extension_bit
  have hlen : (btProtocol ++ s.reserved ++ s.ids).length = 19 + 48 := by
    simp only [List.length_append,s.reserved_length,s.ids_length]
    decide
  have hfive : (((btProtocol ++ s.reserved ++ s.ids).drop 19)[5]?) = some flags := by
    rw [List.append_assoc,List.drop_left' (by decide),List.getElem?_append_left (by rw [s.reserved_length]; decide),
      hflags]
  have htake : (btProtocol ++ s.reserved ++ s.ids).take 19 = btProtocol := by
    rw [List.append_assoc,List.take_left' (by decide)]
  have h₁ : c.input = [UInt8.ofNat btProtocol.length] ++
      ((btProtocol ++ s.reserved ++ s.ids) ++ (frames s.messages ++ s.trailing)) := by
    rw [hin,HonestStream.input]
    simp only [List.cons_append,List.append_assoc,List.nil_append]
  obtain ⟨w,hw⟩ : ∃ w, write (UInt8.ofNat btProtocol.length :: btProtocol ++ btReserved ++ infoHash ++ peerID) c =
      .ok { c with written := w } := ⟨_,write_ok hc _⟩
  have hr₁ := read_append (c := { c with written := w }) h₁
  have hr₂ := @read_append (btProtocol ++ s.reserved ++ s.ids) (frames s.messages ++ s.trailing)
    { c with input := (btProtocol ++ s.reserved ++ s.ids) ++ (frames s.messages ++ s.trailing), written := w } rfl
  rw [hlen] at hr₂
  refine ⟨w,?_⟩
  have hn : (UInt8.ofNat btProtocol.length).toNat = 19 := by decide
  rw [handshake,hw,Outcome.ok_bind,show (1 : ℕ) = [UInt8.ofNat btProtocol.length].length from rfl,hr₁,Outcome.ok_bind]
  simp only [hn,hr₂,Outcome.ok_bind,htake,ne_eq,not_true_eq_false,if_false,hfive,if_pos hbit]

theorem extHandshake_honest (hc : c.Writable) (hmax : m.length ≤ maxMetadataSize)
    (hin : c.input = frames s.messages ++ s.trailing) :
    ∃ msgs written, (∀ msg ∈ msgs, msg.length < 2^32) ∧
      extMessages msgs = s.order.map (fun i => s.extID :: (s.header i).word ++ pieceOf m i) ∧
      extHandshake c = .ok (⟨Int64.ofNat m.length,s.utMetadata,pieceCount m⟩,
        { c with input := frames msgs ++ s.trailing, written := written }) := by
  obtain ⟨w,hw⟩ := sendExt_ok hc extHandshakeID extRequest_bencodable
  obtain ⟨msgs,hshort,hext,hread⟩ :=
    readExtMessage_frames (c := { c with written := w }) s.messages_short s.messages_ext hin
  obtain ⟨ext,hdec,hden⟩ := s.ext.valid.bDecodeDict []
  rw [List.append_nil] at hdec hden
  have hprod := bDecodeDict_produced hdec
  have hsize := s.ext.getInt_eq hprod hden (by decide +kernel) s.ext_size
  have hut : getInt ext (ascii "m.ut_metadata") = (s.utMetadata,true) := by
    obtain ⟨supported,hm,hk⟩ := s.ext_id
    obtain ⟨v,hv,hd⟩ := hprod.lookup_denote hden hm
    obtain ⟨sub,rfl⟩ := Value.denote_dict _ hd
    obtain ⟨v',hv',hd'⟩ := (hprod.of_lookup hv).lookup_denote hd hk
    rw [Value.denote_int _ hd'] at hv'
    apply getInt_of_getByPath
    rw [@getByPath_two _ ext _ (ascii "m") (ascii "ut_metadata") (by decide +kernel),nested_of_map _ hv,hv']
  refine ⟨msgs,w,hshort,hext,?_⟩
  have hle : ¬ (maxMetadataSize : ℤ) < (Int64.ofNat m.length).toInt := by
    unfold maxMetadataSize at hmax ⊢
    rw [Int64.toInt_ofNat_of_lt (by omega)]
    omega
  rw [extHandshake,hw,Outcome.ok_bind,hread,Outcome.ok_bind]
  simp only [extHandshakeID,ne_eq,not_true_eq_false,if_false,hdec,Outcome.mapError_ok,Outcome.ok_bind,hsize,hut,
    hle,decide_false,Bool.not_true,Bool.or_false,Bool.false_eq_true,Outcome.pure_eq,numPieces_ofNat hmax]

theorem readPiece_honest {msgs bodies : List Bytes} {i : ℕ} (hi : i ∈ s.order)
    (hshort : ∀ msg ∈ msgs, msg.length < 2^32)
    (hext : extMessages msgs = (s.extID :: (s.header i).word ++ pieceOf m i) :: bodies)
    (hin : c.input = frames msgs ++ s.trailing) :
    ∃ msgs', (∀ msg ∈ msgs', msg.length < 2^32) ∧ extMessages msgs' = bodies ∧
      readPiece c = .ok (⟨pieceOf m i,Int64.ofNat i⟩,{ c with input := frames msgs' ++ s.trailing }) := by
  obtain ⟨msgs',hshort',hext',hread⟩ := readExtMessage_frames hshort hext hin
  obtain ⟨dict,hdec,hden⟩ := (s.header i).valid.bDecodeDict (pieceOf m i)
  have hprod := bDecodeDict_produced hdec
  have htype := (s.header i).getInt_eq hprod hden (by decide +kernel) (s.header_type i hi)
  have hpiece := (s.header i).getInt_eq hprod hden (by decide +kernel) (s.header_piece i hi)
  have hlen := length_pieceOf m i
  refine ⟨msgs',hshort',hext',?_⟩
  rw [readPiece,hread,Outcome.ok_bind]
  simp only [List.cons_append,if_neg s.extID_ne,hdec,Outcome.mapError_ok,Outcome.ok_bind]
  rw [if_neg (by rw [List.length_append]; omega),List.drop_left,htype,hpiece]
  dsimp only
  rw [if_neg (by decide),if_neg (by omega)]
  rfl

/-- The pieces arrive as they were sent. -/
theorem readLoop_honest {msgs : List Bytes} {order : List ℕ} (hsub : ∀ i ∈ order, i ∈ s.order)
    (hshort : ∀ msg ∈ msgs, msg.length < 2^32)
    (hext : extMessages msgs = order.map fun i => s.extID :: (s.header i).word ++ pieceOf m i)
    (hin : c.input = frames msgs ++ s.trailing) :
    ∃ c', readLoop order.length c = .ok (order.map fun i => ⟨pieceOf m i,Int64.ofNat i⟩,c') := by
  induction order generalizing msgs c with
  | nil => exact ⟨c,rfl⟩
  | cons i order ih =>
    obtain ⟨msgs',hshort',hext',hread⟩ := readPiece_honest s (hsub i List.mem_cons_self) hshort hext hin
    obtain ⟨c',hloop⟩ := ih (c := { c with input := frames msgs' ++ s.trailing })
      (fun k hk => hsub k (List.mem_cons_of_mem _ hk)) hshort' hext' rfl
    refine ⟨c',?_⟩
    rw [List.length_cons,readLoop,hread,Outcome.ok_bind]
    dsimp only
    rw [hloop]
    rfl

theorem requestPieces_honest {msgs : List Bytes} (hc : c.Writable) (ext : ExtHandshakeResult)
    (hn : ext.numPieces = pieceCount m) (hshort : ∀ msg ∈ msgs, msg.length < 2^32)
    (hext : extMessages msgs = s.order.map fun i => s.extID :: (s.header i).word ++ pieceOf m i)
    (hin : c.input = frames msgs ++ s.trailing) :
    ∃ c', requestPieces ext c = .ok (s.order.map fun i => ⟨pieceOf m i,Int64.ofNat i⟩,c') := by
  obtain ⟨w,hw⟩ := requestLoop_ok hc ext ext.numPieces 0
  obtain ⟨c',hloop⟩ := readLoop_honest s (c := { c with written := w }) (fun _ h => h) hshort hext hin
  have hlen : s.order.length = ext.numPieces := by rw [s.order_perm.length_eq,List.length_range,hn]
  refine ⟨c',?_⟩
  rw [requestPieces,hw,Outcome.ok_bind,← hlen,hloop]

/-- From an honest peer the metadata comes out as it is, whatever the order of the pieces. -/
theorem fetch_honest (sha1 : Bytes → Bytes) {dict : Dict Slice} {off : ℕ} (hdec : bDecodeDict m = .ok (dict,off))
    (hmax : m.length ≤ maxMetadataSize) (hc : c.Writable) (peerID : Bytes) (hin : c.input = s.input) :
    fetch sha1 (sha1 m) peerID c = .ok (m,dict) := by
  obtain ⟨w,hw⟩ := handshake_honest s hc (sha1 m) peerID hin
  obtain ⟨msgs,w',hshort,hext,hw'⟩ := extHandshake_honest s
    (c := { c with input := frames s.messages ++ s.trailing, written := w }) hc hmax rfl
  obtain ⟨c',hpieces⟩ := requestPieces_honest s (c := { c with input := frames msgs ++ s.trailing, written := w' })
    hc ⟨Int64.ofNat m.length,s.utMetadata,pieceCount m⟩ rfl hshort hext rfl
  rw [fetch,hw,Outcome.ok_bind,hw',Outcome.ok_bind]
  dsimp only
  rw [hpieces,Outcome.ok_bind]
  dsimp only
  rw [assemble_pieces hmax s.order_perm,Outcome.ok_bind,if_neg (by simp),hdec]
  rfl

end Stream

/-- A dictionary of two entries, written in the order given. -/
def Encoded.pair (k₁ k₂ w₁ w₂ : Bytes) (d₁ d₂ : Datum) (h₁ : k₁.length < 2^63) (h₂ : k₂.length < 2^63)
    (hw₁ : Word w₁ d₁) (hw₂ : Word w₂ d₂) : Encoded where
  word := 'd'.toUInt8 :: (sized k₁ ++ w₁ ++ (sized k₂ ++ w₂ ++ [])) ++ ['e'.toUInt8]
  dict := KeyMap.ofPairs [(k₁,d₁),(k₂,d₂)]
  valid := .dict (.cons (sized_word h₁) hw₁ (.cons (sized_word h₂) hw₂ .nil))

def pieceHeader (i : ℕ) : Encoded :=
  .pair (ascii "msg_type") (ascii "piece") (encodeInt 1) (encodeInt (Int64.ofNat i)) (.int 1)
    (.int (Int64.ofNat i)) (by decide) (by decide) (.int (atoi_itoa 1)) (.int (atoi_itoa _))

theorem length_encodeInt_le (n : Int64) : (encodeInt n).length ≤ 22 := by
  have := length_itoa_le n
  simp only [encodeInt,List.cons_append,List.length_cons,List.length_append,List.length_nil]
  omega

theorem length_pieceHeader_le (i : ℕ) : (pieceHeader i).word.length ≤ 64 := by
  have h₁ := length_encodeInt_le 1
  have h₂ := length_encodeInt_le (Int64.ofNat i)
  have h₃ : (sized (ascii "msg_type")).length = 10 := by decide
  have h₄ : (sized (ascii "piece")).length = 7 := by decide
  simp only [pieceHeader,Encoded.pair,List.cons_append,List.length_cons,List.length_append,List.length_nil,h₃,h₄]
  omega

def utMetadataWord : Bytes := ascii "d11:ut_metadatai1ee"

theorem utMetadataWord_valid : Word utMetadataWord (.dict [(ascii "ut_metadata",.int 1)]) := by
  refine Bencodable.word (v := .map [(ascii "ut_metadata",.int 1)]) (.map (by decide) (by decide) ?_)
    (by decide +kernel) rfl
  simp only [List.mem_singleton,forall_eq]
  exact .int 1

def extReply (size : Int64) : Encoded :=
  .pair (ascii "m") (ascii "metadata_size") utMetadataWord (encodeInt size) (.dict [(ascii "ut_metadata",.int 1)])
    (.int size) (by decide) (by decide) utMetadataWord_valid (.int (atoi_itoa _))

theorem length_extReply_le (size : Int64) : (extReply size).word.length ≤ 64 := by
  have h₁ := length_encodeInt_le size
  have h₂ : utMetadataWord.length = 19 := by decide
  have h₃ : (sized (ascii "m")).length = 3 := by decide
  have h₄ : (sized (ascii "metadata_size")).length = 16 := by decide
  simp only [extReply,Encoded.pair,List.cons_append,List.length_cons,List.length_append,List.length_nil,h₂,h₃,h₄]
  omega

section Sample
variable (m : Bytes)

def pieceMessage (i : ℕ) : Bytes := btMsgID :: 1 :: (pieceHeader i).word ++ pieceOf m i

theorem length_pieceMessage_lt (i : ℕ) : (pieceMessage m i).length < 2^32 := by
  have h₁ := length_pieceHeader_le i
  have h₂ := length_pieceOf m i
  simp only [pieceMessage,List.cons_append,List.length_cons,List.length_append]
  unfold pieceLength at h₂
  omega

theorem extMessages_append (xs ys : List Bytes) : extMessages (xs ++ ys) = extMessages xs ++ extMessages ys :=
  List.filterMap_append

/-- The pieces in some order, with the same other messages in front of each. -/
def piecesAmong (noise : List Bytes) (order : List ℕ) : List Bytes :=
  order.flatMap fun i => noise ++ [pieceMessage m i]

theorem extMessages_piecesAmong {noise : List Bytes} (hnoise : extMessages noise = []) (order : List ℕ) :
    extMessages (piecesAmong m noise order) = order.map fun i => 1 :: (pieceHeader i).word ++ pieceOf m i := by
  induction order with
  | nil => rfl
  | cons i order ih =>
    rw [piecesAmong,List.flatMap_cons,extMessages_append,extMessages_append,hnoise,List.map_cons,← ih]
    rfl

/-- A peer that sends the pieces in this order and these other messages in between. -/
def mixedStream (noise : List Bytes) (hnoise : extMessages noise = []) (hshort : ∀ msg ∈ noise, msg.length < 2^32)
    (order : List ℕ) (horder : order.Perm (List.range (pieceCount m))) (trailing : Bytes) : HonestStream m where
  reserved := btReserved
  reserved_length := rfl
  extension_bit := ⟨0x10,rfl,by decide⟩
  ids := List.replicate 40 0
  ids_length := List.length_replicate
  ext := extReply (Int64.ofNat m.length)
  ext_size := rfl
  utMetadata := 1
  ext_id := ⟨[(ascii "ut_metadata",.int 1)],rfl,rfl⟩
  extID := 1
  extID_ne := by decide
  order := order
  order_perm := horder
  header := pieceHeader
  header_type _ _ := rfl
  header_piece _ _ := rfl
  messages := noise ++ (btMsgID :: extHandshakeID :: (extReply (Int64.ofNat m.length)).word) ::
    piecesAmong m noise order
  messages_short := by
    intro msg hmsg
    simp only [piecesAmong,List.mem_append,List.mem_cons,List.mem_flatMap,List.not_mem_nil,or_false] at hmsg
    rcases hmsg with hmsg | rfl | ⟨i,-,hmsg | rfl⟩
    · exact hshort msg hmsg
    · have := length_extReply_le (Int64.ofNat m.length)
      simp only [List.length_cons]
      omega
    · exact hshort msg hmsg
    · exact length_pieceMessage_lt m i
  messages_ext := by
    rw [extMessages_append,hnoise,List.nil_append,← extMessages_piecesAmong m hnoise order]
    rfl
  trailing := trailing

/-- A peer that sends the pieces in order and nothing else. -/
def plainStream : HonestStream m := mixedStream m [] rfl (by simp) (List.range (pieceCount m)) (.refl _) []

end Sample

/-- A name of this many letters and nothing else. -/
def nameOf (n : ℕ) (h : n < 2^63) : Encoded where
  word := 'd'.toUInt8 :: (sized (ascii "name") ++ sized (List.replicate n 'x'.toUInt8) ++ []) ++ ['e'.toUInt8]
  dict := KeyMap.ofPairs [(ascii "name",.bytes (List.replicate n 'x'.toUInt8))]
  valid := .dict (.cons (sized_word (by decide)) (.bytes (sized_word (by rwa [List.length_replicate]))) .nil)

theorem length_nameOf {n : ℕ} (h : n < 2^63) : (nameOf n h).word.length = (itoa n).length + n + 9 := by
  have hkey : (sized (ascii "name")).length = 6 := by decide
  simp only [nameOf,List.cons_append,List.length_cons,List.length_append,List.length_nil,hkey]
  rw [sized,List.length_append,List.length_cons,List.length_replicate]
  omega

/-- Metadata of two pieces. -/
def longName : Encoded := nameOf 20000 (by decide)

theorem length_longName : longName.word.length = 20014 := by
  have hdigits : (itoa ((20000 : ℕ) : ℤ)).length = 5 := by decide +kernel
  rw [longName,length_nameOf,hdigits]

theorem pieceCount_longName : pieceCount longName.word = 2 := by
  rw [pieceCount,length_longName]
  rfl

/-- The second piece first, and before each message a keep-alive, an unchoke and a `have`. -/
def shuffledStream : HonestStream longName.word :=
  mixedStream longName.word [[],[1],[4,0,0,0,7]] rfl (by decide) [1,0] (by rw [pieceCount_longName]; decide) [0,0]

/-- From an honest peer the caller gets the dictionary that the metadata encode. -/
theorem getMetadata_honest (sha1 : Bytes → Bytes) {m : Bytes} {e : List (Bytes × Datum)}
    (hm : Word m (.dict e)) (hmax : m.length ≤ maxMetadataSize) (s : HonestStream m) {c : Conn}
    (hc : c.Writable) (peerID : Bytes) (hin : c.input = s.input) :
    ∃ dict, fetch sha1 (sha1 m) peerID c = .ok (m,dict) ∧
      getMetadata sha1 (sha1 m) peerID c = some ⟨some (loadEntries (Slice.read m) dict),none⟩ ∧
      (Value.map (loadEntries (Slice.read m) dict)).denote id = some (.dict e) := by
  obtain ⟨dict,hdec,hd⟩ := hm.bDecodeDict []
  rw [List.append_nil] at hdec hd
  have hf := fetch_honest s sha1 hdec hmax hc peerID hin
  refine ⟨dict,hf,by rw [getMetadata,hf],?_⟩
  rw [← hd]
  exact Value.denote_load (Slice.read m) (.map dict)

theorem getMetadata_shuffled :
    ∃ dict, fetch id longName.word [] ⟨shuffledStream.input,fun _ => true,[]⟩ = .ok (longName.word,dict) ∧
      (Value.map (loadEntries (Slice.read longName.word) dict)).denote id = some (.dict longName.dict) := by
  obtain ⟨dict,hf,-,hd⟩ := getMetadata_honest id longName.valid (by rw [length_longName]; decide) shuffledStream
    (c := ⟨shuffledStream.input,fun _ => true,[]⟩) (fun _ => rfl) [] rfl
  exact ⟨dict,hf,hd⟩

end DhtOcean.Metadata
