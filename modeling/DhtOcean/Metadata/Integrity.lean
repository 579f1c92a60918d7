import DhtOcean.Metadata.Honest

/-! # What a peer can make the crawler store

Whatever a peer sends, `GetMetadata` returns: a dictionary only if it was decoded
from octets with the right hash, and an error otherwise. The torrent that is
stored then takes its fields from that dictionary by name and ignoring case, and
the field `InfoHash` is among them.
-/
namespace DhtOcean.Metadata
open Foundation Bencode

section NoHang

theorem handshake_ne_hang (infoHash peerID : Bytes) (c : Conn) : handshake infoHash peerID c ≠ .hang := by
  unfold handshake
  refine Outcome.bind_ne_hang (write_ne_hang _ _) fun c₁ => ?_
  refine Outcome.bind_ne_hang (read_ne_hang _ _) ?_
  rintro ⟨pLength,c₂⟩
  cases pLength with
  | nil => simp
  | cons n rest =>
    refine Outcome.bind_ne_hang (read_ne_hang _ _) ?_
    rintro ⟨data,c₃⟩
    dsimp only
    repeat' split
    all_goals simp

theorem decode_ne_hang (buf : Bytes) : (bDecodeDict buf).mapError BtError.decode ≠ .hang := by
  rw [Ne,Outcome.mapError_eq_hang,bDecodeDict,decodeDict]
  exact dictLoop_ne_hang _ _ _ _

theorem extHandshake_ne_hang (c : Conn) : extHandshake c ≠ .hang := by
  unfold extHandshake
  refine Outcome.bind_ne_hang (sendExt_ne_hang _ _ _) fun c₁ => ?_
  refine Outcome.bind_ne_hang (readExtMessage_ne_hang _) ?_
  rintro ⟨msg,c₂⟩
  cases msg with
  | nil => simp
  | cons id body =>
    dsimp only
    split
    · simp
    · refine Outcome.bind_ne_hang (decode_ne_hang _) ?_
      rintro ⟨ext,pos⟩
      dsimp only
      split <;> simp

theorem readPiece_ne_hang (c : Conn) : readPiece c ≠ .hang := by
  unfold readPiece
  refine Outcome.bind_ne_hang (readExtMessage_ne_hang _) ?_
  rintro ⟨msg,c₂⟩
  cases msg with
  | nil => simp
  | cons id body =>
    dsimp only
    split
    · simp
    · refine Outcome.bind_ne_hang (decode_ne_hang _) ?_
      rintro ⟨dict,pos⟩
      dsimp only
      repeat' split
      all_goals simp

theorem readLoop_ne_hang (n : ℕ) (c : Conn) : readLoop n c ≠ .hang := by
  induction n generalizing c with
  | zero => simp [readLoop]
  | succ n ih =>
    refine Outcome.bind_ne_hang (readPiece_ne_hang c) fun r => ?_
    exact Outcome.bind_ne_hang (ih r.2) fun _ => by simp

theorem placePieces_ne_hang (pieces : List Piece) (raw : Bytes) : placePieces pieces raw ≠ .hang := by
  induction pieces generalizing raw with
  | nil => simp [placePieces]
  | cons piece pieces ih =>
    have hplace : placePiece raw piece ≠ .hang := by
      unfold placePiece
      dsimp only
      split <;> simp
    exact Outcome.bind_ne_hang hplace ih

theorem assemble_ne_hang (size : Int64) (pieces : List Piece) : assemble size pieces ≠ .hang := by
  unfold assemble
  split
  · simp
  · exact placePieces_ne_hang _ _

end NoHang

section Fetch
variable {sha1 : Bytes → Bytes} {infoHash peerID : Bytes} {c : Conn}

theorem fetch_ne_hang : fetch sha1 infoHash peerID c ≠ .hang := by
  unfold fetch
  refine Outcome.bind_ne_hang (handshake_ne_hang _ _ _) fun c₁ => ?_
  refine Outcome.bind_ne_hang (extHandshake_ne_hang _) ?_
  rintro ⟨ext,c₂⟩
  have hpieces : requestPieces ext c₂ ≠ .hang :=
    Outcome.bind_ne_hang (requestLoop_ne_hang _ _ _ _) fun _ => readLoop_ne_hang _ _
  refine Outcome.bind_ne_hang hpieces fun pieces => ?_
  refine Outcome.bind_ne_hang (assemble_ne_hang _ _) fun raw => ?_
  split
  · simp
  · exact Outcome.bind_ne_hang (decode_ne_hang _) fun _ => by simp

/-- A fetch succeeds only with octets of the right hash. -/
theorem fetch_eq_ok {raw : Bytes} {dict : Dict Slice} (h : fetch sha1 infoHash peerID c = .ok (raw,dict)) :
    sha1 raw = infoHash ∧ ∃ off, bDecodeDict raw = .ok (dict,off) := by
  unfold fetch at h
  obtain ⟨c₁,-,h⟩ := Outcome.bind_eq_ok.mp h
  obtain ⟨⟨ext,c₂⟩,-,h⟩ := Outcome.bind_eq_ok.mp h
  obtain ⟨⟨pieces,c₃⟩,-,h⟩ := Outcome.bind_eq_ok.mp h
  obtain ⟨r,-,h⟩ := Outcome.bind_eq_ok.mp h
  split at h
  · cases h
  · rename_i hhash
    obtain ⟨⟨metadata,off⟩,hdec,h⟩ := Outcome.bind_eq_ok.mp h
    cases h
    exact ⟨(not_not.mp hhash).symm,off,Outcome.mapError_eq_ok.mp hdec⟩

/-- The results of a call that succeeded: the dictionary of octets with the right hash. -/
def Delivered (sha1 : Bytes → Bytes) (infoHash : Bytes) (r : MetadataResult) : Prop :=
  ∃ raw dict off, sha1 raw = infoHash ∧ bDecodeDict raw = .ok (dict,off) ∧
    r = ⟨some (loadEntries (Slice.read raw) dict),none⟩

theorem getMetadata_cases :
    ∃ r, getMetadata sha1 infoHash peerID c = some r ∧
      (Delivered sha1 infoHash r ∨ ∃ e, r = ⟨none,some e⟩) := by
  unfold getMetadata
  cases h : fetch sha1 infoHash peerID c with
  | ok r =>
    obtain ⟨raw,dict⟩ := r
    obtain ⟨hhash,off,hdec⟩ := fetch_eq_ok h
    exact ⟨_,rfl,.inl ⟨raw,dict,off,hhash,hdec,rfl⟩⟩
  | error e => exact ⟨_,rfl,.inr ⟨e,rfl⟩⟩
  | panic p => exact ⟨_,rfl,.inr ⟨.recovered,rfl⟩⟩
  | hang => exact absurd h fetch_ne_hang

end Fetch

structure File where
  ed2k : Bytes
  fileHash : Bytes
  length : Int64
  path : List Bytes
  other : Dict Bytes

structure Torrent where
  infoHash : Bytes
  name : Bytes
  pieceLength : Int64 := 0
  pieces : Bytes := []
  publisher : Bytes := []
  files : List File := []
  source : Bytes := []
  other : Dict Bytes := []

/-- Text in one case. Two letters outside ASCII, U+017F and U+212A, fold to ASCII ones. -/
def foldKey : Bytes → Bytes
  | 0xC5 :: 0xBF :: s => 's'.toUInt8 :: foldKey s
  | 0xE2 :: 0x84 :: 0xAA :: s => 'k'.toUInt8 :: foldKey s
  | b :: s => (if 'A'.toUInt8 ≤ b ∧ b ≤ 'Z'.toUInt8 then b+32 else b) :: foldKey s
  | [] => []

/-- `strings.EqualFold(key, name)`, for a name in ASCII. -/
def names (name : String) (key : Bytes) : Bool := foldKey key = foldKey (ascii name)

/-- The octets of a slice after it was filled from its front; it grows as needed and keeps its rest. -/
def overlay (b old : Bytes) : Bytes := b ++ old.drop b.length

/-- The octet that an element of a list becomes. Only integers are converted. -/
def toOctet : Value Bytes → Option UInt8
  | .int n => some n.toUInt64.toUInt8
  | _ => none

/-- What a field of octets holds after an entry was decoded into it with weak typing; `none` is an error.
A single value is lifted to a list of one, and an empty map to an empty slice. -/
def fill : Value Bytes → Bytes → Option Bytes
  | .bytes b, old => some (overlay b old)
  | .list xs, old => (xs.mapM toOctet).map (overlay · old)
  | .map [], _ => some []
  | v, old => (toOctet v).map fun b => overlay [b] old

/-- The entries that may be decoded into a field: the one whose key is the name itself, or else any whose
key equals it without regard to case. -/
def Candidate (name : String) (d : Dict Bytes) (key : Bytes) (v : Value Bytes) : Prop :=
  d.lookup key = some v ∧ names name key = true ∧ ((d.lookup (ascii name)).isSome → key = ascii name)

/-- A dictionary as `GetMetadata` returns it. -/
def FromText (d : Dict Bytes) : Prop :=
  ∃ raw dict off, bDecodeDict raw = .ok (dict,off) ∧ d = loadEntries (Slice.read raw) dict

/-- What `mapstructure` does with `InfoHash`, which has no tag: it is filled from a candidate, and left alone if
there is none. -/
structure DecoderLaws (decode : Dict Bytes → Torrent → Option Torrent) : Prop where
  unmatched : ∀ {d t t'}, FromText d → (∀ key v, ¬ Candidate "InfoHash" d key v) → decode d t = some t' →
    t'.infoHash = t.infoHash
  matched : ∀ {d t t' key v}, FromText d → Candidate "InfoHash" d key v → decode d t = some t' →
    ∃ key v, Candidate "InfoHash" d key v ∧ fill v t.infoHash = some t'.infoHash

section PullTorrent
variable (sha1 : Bytes → Bytes) (decode : Dict Bytes → Torrent → Option Torrent)

/-- The torrent that `pullTorrent` hands to `handleTorrent`, if any. There is no connection
when `bt.Start` fails. -/
def pullTorrent (infoHash peerID : Bytes) (conn : Option Conn) : Option Torrent :=
  match conn with
  | none => none
  | some c =>
    match getMetadata sha1 infoHash peerID c with
    | some ⟨metadata,none⟩ =>
      match decode (metadata.getD []) { infoHash := infoHash, name := [] } with
      | some torrent => if torrent.name ≠ [] then some torrent else none
      | none => none
    | _ => none

end PullTorrent

/-- An entry that leaves a field of 20 octets with 20: a string or a list of at most 20, an integer, or
a map that is not empty, for which decoding fails. -/
def Within : Value Bytes → Prop
  | .bytes b => b.length ≤ 20
  | .list xs => xs.length ≤ 20
  | .map m => m ≠ []
  | _ => True

theorem length_overlay (b old : Bytes) : (overlay b old).length = max b.length old.length := by
  rw [overlay,List.length_append,List.length_drop]
  omega

theorem length_fill {v : Value Bytes} {old b : Bytes} (hold : old.length = 20) (h : fill v old = some b) :
    b.length = 20 ↔ Within v := by
  cases v with
  | bytes s =>
    obtain rfl := Option.some.inj h
    rw [length_overlay,Within,hold]
    omega
  | list xs =>
    obtain ⟨os,hos,rfl⟩ := Option.map_eq_some_iff.mp h
    rw [length_overlay,Within,hold,← (forall₂_of_mapM hos).length_eq]
    omega
  | map m =>
    cases m with
    | nil =>
      obtain rfl := Option.some.inj h
      simp [Within]
    | cons e m => cases h
  | int n =>
    obtain rfl := Option.some.inj h
    simp [length_overlay,Within,hold]
  | str s => cases h
  | other => cases h

section Stored
variable {sha1 : Bytes → Bytes} {decode : Dict Bytes → Torrent → Option Torrent} {infoHash peerID : Bytes}

theorem pullTorrent_eq_some {conn : Option Conn} {t : Torrent} :
    pullTorrent sha1 decode infoHash peerID conn = some t ↔
      ∃ c raw dict, conn = some c ∧ fetch sha1 infoHash peerID c = .ok (raw,dict) ∧
        decode (loadEntries (Slice.read raw) dict) { infoHash := infoHash, name := [] } = some t ∧ t.name ≠ [] := by
  constructor
  · intro h
    cases conn with
    | none => cases h
    | some c =>
      cases hf : fetch sha1 infoHash peerID c with
      | ok r =>
        obtain ⟨raw,dict⟩ := r
        simp only [pullTorrent,getMetadata,hf,Option.getD_some] at h
        split at h
        · rename_i torrent ht
          split at h
          · rename_i hname
            obtain rfl := Option.some.inj h
            exact ⟨c,raw,dict,rfl,hf,ht,hname⟩
          · cases h
        · cases h
      | _ => simp [pullTorrent,getMetadata,hf] at h
  · rintro ⟨c,raw,dict,rfl,hf,ht,hname⟩
    simp [pullTorrent,getMetadata,hf,ht,hname]

/-- A torrent decoded from metadata with the announced hash has one of 20 octets if every candidate
leaves as many, and if there is at most one candidate only then. -/
theorem infoHash_length (hsha1 : ∀ b, (sha1 b).length = 20) (laws : DecoderLaws decode) {d : Dict Bytes}
    (htext : FromText d) {raw : Bytes} (hhash : sha1 raw = infoHash) {t : Torrent}
    (ht : decode d { infoHash := infoHash, name := [] } = some t) :
    ((∀ key v, Candidate "InfoHash" d key v → Within v) → t.infoHash.length = 20) ∧
    ((∀ key v key' v', Candidate "InfoHash" d key v → Candidate "InfoHash" d key' v' → key = key') →
      t.infoHash.length = 20 → ∀ key v, Candidate "InfoHash" d key v → Within v) := by
  have hlen : infoHash.length = 20 := by rw [← hhash,hsha1]
  constructor
  · intro hall
    by_cases hnamed : ∃ key v, Candidate "InfoHash" d key v
    · obtain ⟨key,v,hcand⟩ := hnamed
      obtain ⟨key',v',hcand',hfill⟩ := laws.matched htext hcand ht
      exact (length_fill hlen hfill).mpr (hall key' v' hcand')
    · have hnone : ∀ key v, ¬ Candidate "InfoHash" d key v := fun key v hcand => hnamed ⟨key,v,hcand⟩
      rw [laws.unmatched htext hnone ht]
      exact hlen
  · intro hone h20 key v hcand
    obtain ⟨key',v',hcand',hfill⟩ := laws.matched htext hcand ht
    obtain rfl := hone key v key' v' hcand hcand'
    obtain rfl : v = v' := Option.some.inj (hcand.1.symm.trans hcand'.1)
    exact (length_fill hlen hfill).mp h20

end Stored

section Sample

def zeroHash (_ : Bytes) : Bytes := List.replicate 20 0

/-- The candidate that is taken, the first one found if there are several. -/
def pick (name : String) (d : Dict Bytes) : Option (Bytes × Value Bytes) :=
  match d.lookup (ascii name) with
  | some v => some (ascii name,v)
  | none => d.find? fun e => names name e.1

/-- A decoder of the two fields that matter here. -/
def fieldDecode (d : Dict Bytes) (t : Torrent) : Option Torrent :=
  let name :=
    match d.lookup (ascii "name") with
    | some (.bytes b) => b
    | _ => t.name
  match pick "InfoHash" d with
  | some e => (fill e.2 t.infoHash).map fun infoHash => { t with infoHash := infoHash, name := name }
  | none => some { t with name := name }

theorem pick_eq_some {name : String} {d : Dict Bytes} {key : Bytes} {v : Value Bytes}
    (h : pick name d = some (key,v)) : Candidate name d key v := by
  unfold pick at h
  split at h
  · rename_i w hw
    obtain ⟨rfl,rfl⟩ := Prod.mk.inj (Option.some.inj h)
    exact ⟨hw,decide_eq_true rfl,fun _ => rfl⟩
  · rename_i hexact
    have hname := List.find?_some h
    exact ⟨KeyMap.lookup_of_find h,hname,by simp [hexact]⟩

theorem pick_eq_none {name : String} {d : Dict Bytes} (h : pick name d = none) (key : Bytes) (v : Value Bytes) :
    ¬ Candidate name d key v := by
  unfold pick at h
  split at h
  · cases h
  · rintro ⟨hlookup,hname,-⟩
    exact List.find?_eq_none.mp h _ (KeyMap.mem_of_lookup hlookup) hname

theorem fieldDecode_laws : DecoderLaws fieldDecode where
  unmatched := by
    intro d t t' htext hnone h
    cases hpick : pick "InfoHash" d with
    | none =>
      rw [fieldDecode,hpick] at h
      obtain rfl := Option.some.inj h
      rfl
    | some e => exact absurd (pick_eq_some hpick) (hnone e.1 e.2)
  matched := by
    intro d t t' key v htext hcand h
    cases hpick : pick "InfoHash" d with
    | none => exact absurd hcand (pick_eq_none hpick key v)
    | some e =>
      rw [fieldDecode,hpick] at h
      obtain ⟨infoHash,hfill,rfl⟩ := Option.map_eq_some_iff.mp h
      exact ⟨e.1,e.2,pick_eq_some hpick,hfill⟩

/-- Metadata whose own entry replaces the hash. -/
def selfNamed : Bytes := ascii "d8:infohash21:aaaaaaaaaaaaaaaaaaaaa4:name1:xe"

theorem selfNamed_replaces_hash :
    DecoderLaws fieldDecode ∧
    (pullTorrent zeroHash fieldDecode (zeroHash selfNamed) []
      (some ⟨(plainStream selfNamed).input,fun _ => true,[]⟩)).map (·.infoHash) =
        some (List.replicate 21 'a'.toUInt8) :=
  ⟨fieldDecode_laws,by decide +kernel⟩

/-- Metadata whose own entry replaces the first octets of the hash only. -/
def shortNamed : Bytes := ascii "d8:infohash3:aaa4:name1:xe"

/-- Exactly two byte strings under `infohash` and `name`, the first in this place. -/
def twoStrings (start size : ℕ) : Dict Slice × ℕ → Bool
  | ([(k₁,.bytes s₁),(k₂,.bytes s₂)],_) =>
    (k₁,s₁,k₂,s₂) = (ascii "infohash",Slice.view start size,ascii "name",Slice.view (start + size + 8) 1)
  | _ => false

theorem dict_of_twoStrings {buf : Bytes} {start size : ℕ}
    (h : (bDecodeDict buf).okAnd (twoStrings start size) = true) :
    ∃ off, bDecodeDict buf =
      .ok ([(ascii "infohash",.bytes (.view start size)),(ascii "name",.bytes (.view (start + size + 8) 1))],off) := by
  cases hd : bDecodeDict buf with
  | ok r =>
    rw [hd,Outcome.okAnd] at h
    unfold twoStrings at h
    split at h
    · simp only [decide_eq_true_eq,Prod.mk.injEq] at h
      obtain ⟨rfl,rfl,rfl,rfl⟩ := h
      exact ⟨_,rfl⟩
    · cases h
  | _ =>
    rw [hd] at h
    cases h

theorem candidate_iff {x y key : Bytes} {v : Value Bytes} :
    Candidate "InfoHash" [(ascii "infohash",.bytes x),(ascii "name",.bytes y)] key v ↔
      key = ascii "infohash" ∧ v = .bytes x := by
  constructor
  · rintro ⟨hlookup,hname,-⟩
    have hmem := KeyMap.mem_of_lookup hlookup
    simp only [List.mem_cons,List.not_mem_nil,or_false,Prod.mk.injEq] at hmem
    rcases hmem with h | ⟨rfl,-⟩
    · exact h
    · exact absurd hname (by decide)
  · rintro ⟨rfl,rfl⟩
    have hexact : ([(ascii "infohash",.bytes x),(ascii "name",.bytes y)] : Dict Bytes).lookup (ascii "InfoHash") =
        none := rfl
    exact ⟨rfl,by decide,by simp [hexact]⟩

end Sample

/-- Whatever the peer sends, the call returns a dictionary of octets with the right hash or an error
alone. A torrent that is stored has a hash of 20 octets if the entries of the delivered dictionary that
may be taken for its field leave it so, and with one such entry only then; and every metadata within the
size limit can be delivered. -/
theorem metadata_integrity_while_within {sha1 : Bytes → Bytes} (hsha1 : ∀ b, (sha1 b).length = 20)
    {decode : Dict Bytes → Torrent → Option Torrent} (laws : DecoderLaws decode) (infoHash : Bytes) :
    (∀ peerID c, ∃ r, getMetadata sha1 infoHash peerID c = some r ∧
      (Delivered sha1 infoHash r ∨ ∃ e, r = ⟨none,some e⟩)) ∧
    (∀ peerID conn t, pullTorrent sha1 decode infoHash peerID conn = some t →
      ∃ c raw dict, conn = some c ∧ fetch sha1 infoHash peerID c = .ok (raw,dict) ∧
        ((∀ key v, Candidate "InfoHash" (loadEntries (Slice.read raw) dict) key v → Within v) → t.infoHash.length = 20) ∧
        ((∀ key v key' v', Candidate "InfoHash" (loadEntries (Slice.read raw) dict) key v →
            Candidate "InfoHash" (loadEntries (Slice.read raw) dict) key' v' → key = key') → t.infoHash.length = 20 →
          ∀ key v, Candidate "InfoHash" (loadEntries (Slice.read raw) dict) key v → Within v)) ∧
    (∀ raw dict off t, raw.length ≤ maxMetadataSize → sha1 raw = infoHash → bDecodeDict raw = .ok (dict,off) →
      decode (loadEntries (Slice.read raw) dict) { infoHash := infoHash, name := [] } = some t → t.name ≠ [] →
      ∀ peerID, ∃ c, fetch sha1 infoHash peerID c = .ok (raw,dict) ∧
        pullTorrent sha1 decode infoHash peerID (some c) = some t) := by
  refine ⟨fun peerID c => getMetadata_cases,?_,?_⟩
  · intro peerID conn t h
    obtain ⟨c,raw,dict,rfl,hf,ht,-⟩ := pullTorrent_eq_some.mp h
    obtain ⟨hhash,off,hdec⟩ := fetch_eq_ok hf
    exact ⟨c,raw,dict,rfl,hf,infoHash_length hsha1 laws ⟨raw,dict,off,hdec,rfl⟩ hhash ht⟩
  · rintro raw dict off t hsmall rfl hdec ht hname peerID
    have hf := fetch_honest (plainStream raw) sha1 (c := ⟨(plainStream raw).input,fun _ => true,[]⟩)
      hdec hsmall (fun _ => rfl) peerID rfl
    exact ⟨_,hf,pullTorrent_eq_some.mpr ⟨_,raw,dict,rfl,hf,ht,hname⟩⟩

theorem shortNamed_keeps_hash :
    (∃ c t, pullTorrent zeroHash fieldDecode (zeroHash shortNamed) [] (some c) = some t ∧ t.infoHash.length = 20) ∧
    ∃ c t, pullTorrent zeroHash fieldDecode (zeroHash selfNamed) [] (some c) = some t ∧ t.infoHash.length ≠ 20 := by
  have hsha1 : ∀ b, (zeroHash b).length = 20 := fun _ => List.length_replicate
  constructor
  · obtain ⟨off,hdec⟩ := @dict_of_twoStrings shortNamed 13 3 (by decide +kernel)
    obtain ⟨-,hstored,hdelivered⟩ :=
      metadata_integrity_while_within hsha1 fieldDecode_laws (zeroHash shortNamed)
    obtain ⟨c,hf,hpull⟩ := hdelivered shortNamed _ off _ (by decide) rfl hdec rfl (by decide) []
    obtain ⟨c',raw,dict,hc,hf',hkept,-⟩ := hstored [] _ _ hpull
    obtain rfl := Option.some.inj hc
    obtain ⟨rfl,rfl⟩ := Prod.mk.inj (Outcome.ok.inj (hf.symm.trans hf'))
    refine ⟨c,_,hpull,hkept fun key v hcand => ?_⟩
    obtain ⟨-,rfl⟩ := candidate_iff.mp hcand
    show List.length _ ≤ 20
    decide
  · obtain ⟨off,hdec⟩ := @dict_of_twoStrings selfNamed 14 21 (by decide +kernel)
    obtain ⟨-,hstored,hdelivered⟩ :=
      metadata_integrity_while_within hsha1 fieldDecode_laws (zeroHash selfNamed)
    obtain ⟨c,hf,hpull⟩ := hdelivered selfNamed _ off _ (by decide) rfl hdec rfl (by decide) []
    obtain ⟨c',raw,dict,hc,hf',-,honly⟩ := hstored [] _ _ hpull
    obtain rfl := Option.some.inj hc
    obtain ⟨rfl,rfl⟩ := Prod.mk.inj (Outcome.ok.inj (hf.symm.trans hf'))
    refine ⟨c,_,hpull,fun h20 => ?_⟩
    have hwithin := honly (fun _ _ _ _ h h' => (candidate_iff.mp h).1.trans (candidate_iff.mp h').1.symm) h20 _ _
      (candidate_iff.mpr ⟨rfl,rfl⟩)
    exact absurd hwithin (show ¬ List.length _ ≤ 20 by decide)

end DhtOcean.Metadata
