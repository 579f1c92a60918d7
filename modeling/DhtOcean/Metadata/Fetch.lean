import DhtOcean.Bencode.Paths
import DhtOcean.Metadata.Wire

/-! # Fetching metadata from a peer

The handshakes, the exchange of pieces and their assembly, as the source does
them one after the other on one connection. `fetch` is the body of `GetMetadata`
and may panic; `getMetadata` is what its caller sees behind the deferred recovery.
-/
namespace DhtOcean.Metadata
open Foundation Bencode

def btProtocol : Bytes := ascii "BitTorrent protocol"

def btReserved : Bytes := [0x00,0x00,0x00,0x00,0x00,0x10,0x00,0x01]

def pieceLength : ℕ := 2^14

def maxMetadataSize : ℕ := 10000000

def extHandshakeID : UInt8 := 0

/-- `peerID` is the random ID that the handshake carries. -/
def handshake (infoHash peerID : Bytes) (c : Conn) : Session Conn := do
  let c ← write (UInt8.ofNat btProtocol.length :: btProtocol ++ btReserved ++ infoHash ++ peerID) c
  let (pLength,c) ← read 1 c
  match pLength with
  | [] => .error .emptyProtocolLength
  | n :: _ => do
    let (data,c) ← read (n.toNat + 48) c
    if data.take n.toNat ≠ btProtocol then .error .notBtProtocol
    else
      match (data.drop n.toNat)[5]? with
      | none => .panic .indexOutOfRange
      | some flags => if 0 < flags &&& 0x10 then .ok c else .error .handshakeFailed

structure ExtHandshakeResult where
  metadataSize : Int64
  utMetadata : Int64
  numPieces : ℕ
  deriving DecidableEq, Repr

/-- The quotient by a power of two is exact in floating point; a negative size has no pieces. -/
def numPieces (metadataSize : Int64) : ℕ := (metadataSize.toInt.toNat + (pieceLength - 1)) / pieceLength

/-- Sends the encoding of `dict` as an extension message. -/
def sendExt (id : UInt8) (dict : Dict Bytes) (c : Conn) : Session Conn := do
  let p ← (Outcome.ofExcept (bEncode (.map dict))).mapError .encode
  sendMessage (btMsgID :: id :: p) c

def extHandshake (c : Conn) : Session (ExtHandshakeResult × Conn) := do
  let c ← sendExt extHandshakeID [(ascii "m",.map [(ascii "ut_metadata",.int 1)])] c
  let (msg,c) ← readExtMessage c
  match msg with
  | [] => .panic .indexOutOfRange
  | id :: body =>
    if id ≠ 0 then .error (.notExtHandshake id)
    else do
      let (ext,_) ← (bDecodeDict body).mapError .decode
      let (metadataSize,ok₁) := getInt ext (ascii "metadata_size")
      let (utMetadata,ok₂) := getInt ext (ascii "m.ut_metadata")
      if !ok₁ || !ok₂ || decide ((maxMetadataSize : ℤ) < metadataSize.toInt) then .error .illegalFormat
      else return (⟨metadataSize,utMetadata,numPieces metadataSize⟩,c)

def requestPiece (ext : ExtHandshakeResult) (piece : ℕ) (c : Conn) : Session Conn :=
  sendExt ext.utMetadata.toUInt64.toUInt8
    [(ascii "msg_type",.int 0),(ascii "piece",.int (Int64.ofNat piece))] c

structure Piece where
  data : Bytes
  id : Int64
  deriving DecidableEq, Repr

def readPiece (c : Conn) : Session (Piece × Conn) := do
  let (msg,c) ← readExtMessage c
  match msg with
  | [] => .panic .indexOutOfRange
  | id :: body =>
    if id = 0 then .error .isExtHandshake
    else do
      let (dict,pos) ← (bDecodeDict body).mapError .decode
      -- The offset may lie one past the message, or further, when the dictionary is cut off.
      if body.length < pos then .panic .sliceBounds
      else
        let trailer := body.drop pos
        if (getInt dict (ascii "msg_type")).1 ≠ 1 then .error .wrongMsgType
        else if pieceLength < trailer.length then .error .pieceTooLong
        else return (⟨trailer,(getInt dict (ascii "piece")).1⟩,c)

/-- The requests for the pieces `i`, …, `i+n-1`. -/
def requestLoop (ext : ExtHandshakeResult) : ℕ → ℕ → Conn → Session Conn
  | 0, _, c => .ok c
  | n+1, i, c => do
    let c ← requestPiece ext i c
    requestLoop ext n (i+1) c

def readLoop : ℕ → Conn → Session (List Piece × Conn)
  | 0, c => .ok ([],c)
  | n+1, c => do
    let (piece,c) ← readPiece c
    let (pieces,c) ← readLoop n c
    return (piece :: pieces,c)

def requestPieces (ext : ExtHandshakeResult) (c : Conn) : Session (List Piece × Conn) := do
  let c ← requestLoop ext ext.numPieces 0 c
  readLoop ext.numPieces c

/-- `copy(raw[id*pieceLength:], data)`, where the product is a 64-bit one. -/
def placePiece (raw : Bytes) (piece : Piece) : Session Bytes :=
  let lo := (piece.id * Int64.ofNat pieceLength).toInt
  if lo < 0 ∨ raw.length < lo then .panic .sliceBounds
  else .ok (overwrite raw lo.toNat (piece.data.take (raw.length - lo.toNat)))

def placePieces : List Piece → Bytes → Session Bytes
  | [], raw => .ok raw
  | piece :: pieces, raw => do
    let raw ← placePiece raw piece
    placePieces pieces raw

def assemble (metadataSize : Int64) (pieces : List Piece) : Session Bytes :=
  if metadataSize.toInt < 0 then .panic .makeSlice
  else placePieces pieces (List.replicate metadataSize.toInt.toNat 0)

section Sha1
variable (sha1 : Bytes → Bytes)

/-- The raw metadata and its dictionary. -/
def fetch (infoHash peerID : Bytes) (c : Conn) : Session (Bytes × Dict Slice) := do
  let c ← handshake infoHash peerID c
  let (ext,c) ← extHandshake c
  let (pieces,_) ← requestPieces ext c
  let raw ← assemble ext.metadataSize pieces
  if infoHash ≠ sha1 raw then .error .corruptTorrent
  else do
    let (metadata,_) ← (bDecodeDict raw).mapError .decode
    return (raw,metadata)

/-- The two results of `GetMetadata`; `none` is nil. -/
structure MetadataResult where
  metadata : Option (Dict Bytes)
  err : Option BtError

/-- The named result `metadata` is assigned last, so it is still nil when a panic is recovered.
A call that hangs gives nothing. -/
def getMetadata (infoHash peerID : Bytes) (c : Conn) : Option MetadataResult :=
  match fetch sha1 infoHash peerID c with
  | .ok (raw,metadata) => some ⟨some (loadEntries (Slice.read raw) metadata),none⟩
  | .error e => some ⟨none,some e⟩
  | .panic _ => some ⟨none,some .recovered⟩
  | .hang => none

end Sha1

theorem sendExt_ne_hang (id : UInt8) (dict : Dict Bytes) (c : Conn) : sendExt id dict c ≠ .hang := by
  unfold sendExt
  cases bEncode (.map dict) <;> simp [Outcome.ofExcept,Outcome.mapError,sendMessage_ne_hang]

theorem requestLoop_ne_hang (ext : ExtHandshakeResult) (n i : ℕ) (c : Conn) : requestLoop ext n i c ≠ .hang := by
  induction n generalizing i c with
  | zero => simp [requestLoop]
  | succ n ih => simp [requestLoop,requestPiece,Outcome.bind_eq_hang,sendExt_ne_hang,ih]

end DhtOcean.Metadata
