import DhtOcean.Foundation.Hex
import DhtOcean.Metadata.Integrity

/-! # What is stored of a torrent

A torrent that was fetched or committed becomes a document with all fields of the
model, and an upsert sets them all. So the fields that other services have written
since are lost when the torrent is ingested again. The length that is stored is
added up from the list of files alone.
-/
namespace DhtOcean.Ingestion
open Foundation Bencode

inductive Bson
  | null
  | string (s : Bytes)
  | int64 (n : Int64)
  | bool (b : Bool)
  | date (ms : ℤ)
  | array (xs : List Bson)
  | doc (fields : List (Bytes × Bson))

structure File where
  length : Int64
  paths : List Bytes
  fileHash : Bytes

/-- The model, with dates in milliseconds; `none` is a nil pointer, slice or interface. -/
structure Torrent where
  infoHash : Bytes
  name : Bytes
  files : List File
  tags : Option (List Bytes) := none
  type : Bytes := []
  length : Int64 := 0
  createdAt : Option ℤ := none
  updatedAt : Option ℤ := none
  seeders : Option UInt32 := none
  leechers : Option UInt32 := none
  trackerUpdatedAt : Option ℤ := none
  searchUpdated : Bool := false
  trackerLastTriedAt : Option ℤ := none
  raw : Option Bson := none

namespace Bson

def ofDate (date : Option ℤ) : Bson := date.elim null Bson.date

def ofUint32 (n : Option UInt32) : Bson := n.elim null (fun n => int64 (Int64.ofNat n.toNat))

def ofStrings (xs : List Bytes) : Bson := array (xs.map string)

/-- A field with the tag `omitempty`. -/
def unlessEmpty (empty : Bool) (key : String) (value : Bson) : List (Bytes × Bson) :=
  if empty then [] else [(ascii key,value)]

def ofFile (f : File) : Bson :=
  doc (unlessEmpty (f.length == 0) "length" (int64 f.length) ++
    unlessEmpty f.paths.isEmpty "paths" (ofStrings f.paths) ++
    unlessEmpty f.fileHash.isEmpty "file_hash" (string f.fileHash))

end Bson

/-- The fields under their tags. -/
def Torrent.fields (t : Torrent) : List (Bytes × Bson) :=
  [(ascii "_id",.string t.infoHash),
    (ascii "name",.string t.name),
    (ascii "files",.array (t.files.map Bson.ofFile)),
    (ascii "tags",t.tags.elim .null Bson.ofStrings),
    (ascii "type",.string t.type),
    (ascii "length",.int64 t.length),
    (ascii "created_at",.ofDate t.createdAt),
    (ascii "updated_at",.ofDate t.updatedAt),
    (ascii "seeders",.ofUint32 t.seeders),
    (ascii "leechers",.ofUint32 t.leechers),
    (ascii "tracker_updated_at",.ofDate t.trackerUpdatedAt),
    (ascii "search_updated",.bool t.searchUpdated),
    (ascii "tracker_last_tried_at",.ofDate t.trackerLastTriedAt),
    (ascii "raw",t.raw.getD .null)]

/-- A stored document, by the names of its fields. -/
abbrev Document := Bytes → Option Bson

/-- The documents by their ID. -/
abbrev Collection := Bytes → Option Document

/-- The operator `$set`. -/
def setFields (fields : List (Bytes × Bson)) (doc : Document) : Document :=
  fun key => (fields.lookup key).or (doc key)

/-- `Update` with the option to insert. -/
def Collection.update (coll : Collection) (t : Torrent) : Collection := fun id =>
  if id = t.infoHash then some (setFields t.fields ((coll id).getD (fun _ => none))) else coll id

/-- The loop of both constructors over the files that they are given. -/
def addFiles {F : Type} (newFile : F → File) (length : F → Int64) (files : List F) (t : Torrent) : Torrent :=
  files.foldl (fun t file => { t with files := t.files ++ [newFile file], length := t.length + length file }) t

structure ProtoFile where
  length : Int64
  paths : List Bytes
  fileHash : Bytes

structure CommitTorrentRequest where
  infoHash : Bytes
  name : Bytes
  files : List ProtoFile

def newFileFromProto (p : ProtoFile) : File := ⟨p.length,p.paths,encodeHex p.fileHash⟩

def newFileFromBTFile (p : Metadata.File) : File := ⟨p.length,p.path,encodeHex p.fileHash⟩

def newTorrentFromCommitRequest (now : ℤ) (t : CommitTorrentRequest) : Torrent :=
  addFiles newFileFromProto ProtoFile.length t.files
    { infoHash := encodeHex t.infoHash, name := t.name, files := [], searchUpdated := false,
      createdAt := some now, updatedAt := some now }

def newTorrentFromBTTorrent (now : ℤ) (t : Metadata.Torrent) : Torrent :=
  addFiles newFileFromBTFile Metadata.File.length t.files
    { infoHash := encodeHex t.infoHash, name := t.name, files := [], searchUpdated := false,
      createdAt := some now, updatedAt := some now }

theorem addFiles_eq {F : Type} (newFile : F → File) (length : F → Int64) (files : List F) (t : Torrent) :
    addFiles newFile length files t =
      { t with files := t.files ++ files.map newFile, length := files.foldl (fun n f => n + length f) t.length } := by
  induction files generalizing t with
  | nil => simp [addFiles]
  | cons file files ih =>
    have htail := ih { t with files := t.files ++ [newFile file], length := t.length + length file }
    simp only [addFiles] at htail
    simp [addFiles,htail]

section History

/-- The two ways in which a torrent gets into the collection. -/
inductive Source
  | handleTorrent (t : Metadata.Torrent)
  | commitTorrent (req : CommitTorrentRequest)

namespace Source

def torrent (now : ℤ) : Source → Torrent
  | handleTorrent t => newTorrentFromBTTorrent now t
  | commitTorrent req => newTorrentFromCommitRequest now req

/-- The ID under which the torrent is stored. -/
def id : Source → Bytes
  | handleTorrent t => encodeHex t.infoHash
  | commitTorrent req => encodeHex req.infoHash

end Source

def historyFields : List Bytes :=
  [ascii "created_at",ascii "seeders",ascii "leechers",ascii "tracker_updated_at",ascii "tracker_last_tried_at"]

/-- None of the fields differs. -/
def KeepsHistory (doc doc' : Document) : Prop := ∀ key ∈ historyFields, doc' key = doc key

/-- The document was created in the same millisecond, and nothing has happened to it since. -/
structure Unused (now : ℤ) (doc : Document) : Prop where
  created : doc (ascii "created_at") = some (.date now)
  seeders : doc (ascii "seeders") = some .null
  leechers : doc (ascii "leechers") = some .null
  trackerUpdated : doc (ascii "tracker_updated_at") = some .null
  trackerLastTried : doc (ascii "tracker_last_tried_at") = some .null

/-- What both constructors have in common. -/
structure New (now : ℤ) (id : Bytes) (t : Torrent) : Prop where
  infoHash : t.infoHash = id
  createdAt : t.createdAt = some now
  seeders : t.seeders = none
  leechers : t.leechers = none
  trackerUpdatedAt : t.trackerUpdatedAt = none
  trackerLastTriedAt : t.trackerLastTriedAt = none

theorem new_torrent (now : ℤ) (i : Source) : New now i.id (i.torrent now) := by
  cases i with
  | handleTorrent t =>
    rw [Source.torrent,newTorrentFromBTTorrent,addFiles_eq]
    exact ⟨rfl,rfl,rfl,rfl,rfl,rfl⟩
  | commitTorrent req =>
    rw [Source.torrent,newTorrentFromCommitRequest,addFiles_eq]
    exact ⟨rfl,rfl,rfl,rfl,rfl,rfl⟩

theorem setFields_of_mem {fields : List (Bytes × Bson)} (hfields : (fields.map Prod.fst).Nodup) {key : Bytes} {v : Bson}
    (h : (key,v) ∈ fields) (doc : Document) : setFields fields doc key = some v := by
  rw [setFields,KeyMap.lookup_of_mem hfields h,Option.some_or]

theorem Torrent.nodup_fields (t : Torrent) : (t.fields.map Prod.fst).Nodup := by
  simp only [Torrent.fields,List.map_cons,List.map_nil]
  decide +kernel

/-- The upsert leaves the fields of a new torrent, whatever was there. -/
theorem setFields_history {now : ℤ} {id : Bytes} {t : Torrent} (ht : New now id t) (doc : Document) :
    Unused now (setFields t.fields doc) where
  created := setFields_of_mem t.nodup_fields (by simp [Torrent.fields,ht.createdAt,Bson.ofDate]) doc
  seeders := setFields_of_mem t.nodup_fields (by simp [Torrent.fields,ht.seeders,Bson.ofUint32]) doc
  leechers := setFields_of_mem t.nodup_fields (by simp [Torrent.fields,ht.leechers,Bson.ofUint32]) doc
  trackerUpdated := setFields_of_mem t.nodup_fields (by simp [Torrent.fields,ht.trackerUpdatedAt,Bson.ofDate]) doc
  trackerLastTried := setFields_of_mem t.nodup_fields (by simp [Torrent.fields,ht.trackerLastTriedAt,Bson.ofDate]) doc

theorem Unused.keepsHistory_iff {now : ℤ} {doc doc' : Document} (hnew : Unused now doc') :
    KeepsHistory doc doc' ↔ Unused now doc := by
  constructor
  · intro h
    have hback : ∀ key ∈ historyFields, ∀ v, doc' key = some v → doc key = some v := by
      intro key hkey v hv
      rw [← h key hkey,hv]
    simp only [historyFields,List.forall_mem_cons] at hback
    obtain ⟨hcreated,hseeders,hleechers,hupdated,htried,-⟩ := hback
    exact ⟨hcreated _ hnew.created,hseeders _ hnew.seeders,hleechers _ hnew.leechers,
      hupdated _ hnew.trackerUpdated,htried _ hnew.trackerLastTried⟩
  · intro hold key hkey
    simp only [historyFields,List.mem_cons,List.not_mem_nil,or_false] at hkey
    rcases hkey with rfl | rfl | rfl | rfl | rfl
    · rw [hnew.created,hold.created]
    · rw [hnew.seeders,hold.seeders]
    · rw [hnew.leechers,hold.leechers]
    · rw [hnew.trackerUpdated,hold.trackerUpdated]
    · rw [hnew.trackerLastTried,hold.trackerLastTried]

/-- A stored document keeps its history through an ingestion exactly if it has none. -/
theorem keepsHistory_iff_unused (coll : Collection) (doc : Document) (now : ℤ) (i : Source)
    (hdoc : coll i.id = some doc) :
    ∃ doc', coll.update (i.torrent now) i.id = some doc' ∧ (KeepsHistory doc doc' ↔ Unused now doc) := by
  have hnew := new_torrent now i
  refine ⟨setFields (i.torrent now).fields doc,?_,(setFields_history hnew doc).keepsHistory_iff⟩
  rw [Collection.update,if_pos hnew.infoHash.symm,hdoc]
  rfl

/-- A torrent of which nothing but its hash and its name is known. -/
def bareTorrent : Metadata.Torrent := { infoHash := [1], name := ascii "x" }

/-- The document after a first ingestion at time zero and one result of the tracker. -/
def trackedDocument : Document :=
  setFields [(ascii "seeders",.int64 7),(ascii "leechers",.int64 2),(ascii "tracker_updated_at",.date 5),
    (ascii "tracker_last_tried_at",.date 4)]
    (setFields (newTorrentFromBTTorrent 0 bareTorrent).fields (fun _ => none))

/-- The same torrent again, and everything is lost. -/
theorem trackedDocument_loses_history :
    historyFields.map trackedDocument =
      [some (.date 0),some (.int64 7),some (.int64 2),some (.date 5),some (.date 4)] ∧
    (∀ i ∈ [Source.handleTorrent bareTorrent,.commitTorrent ⟨[1],ascii "x",[]⟩],
      (Collection.update (fun _ => some trackedDocument) (i.torrent 9) i.id).map (historyFields.map ·) =
        some [some (.date 9),some .null,some .null,some .null,some .null]) := by
  refine ⟨rfl,?_⟩
  simp only [List.forall_mem_cons,List.not_mem_nil,false_imp_iff,implies_true,and_true]
  exact ⟨rfl,rfl⟩

theorem unused_kept :
    ∃ doc', Collection.update (fun _ => some (setFields (newTorrentFromBTTorrent 0 bareTorrent).fields (fun _ => none)))
        (newTorrentFromBTTorrent 0 bareTorrent) (encodeHex [1]) = some doc' ∧
      KeepsHistory (setFields (newTorrentFromBTTorrent 0 bareTorrent).fields (fun _ => none)) doc' := by
  obtain ⟨doc',hupdate,hkeeps⟩ := keepsHistory_iff_unused
    (fun _ => some (setFields (newTorrentFromBTTorrent 0 bareTorrent).fields (fun _ => none))) _ 0
    (.handleTorrent bareTorrent) rfl
  exact ⟨doc',hupdate,hkeeps.mpr ⟨rfl,rfl,rfl,rfl,rfl⟩⟩

end History

section Length
open Metadata (Candidate pick pick_eq_some pick_eq_none)
variable {decode : Dict Bytes → Metadata.Torrent → Option Metadata.Torrent}

/-- The file has the integer of an entry that its tag may take, if there is one. -/
def HasLength (x : Value Bytes) (f : Metadata.File) : Prop :=
  ∀ m, x = .map m → (∃ key v, Candidate "length" m key v) →
    ∃ key v, Candidate "length" m key v ∧ ∀ n, v = .int n → f.length = n

/-- What is assumed of `mapstructure` about the two tags that matter: a torrent without files gets those of a list
that its tag may take, each with its own length, and where the tag has nothing to take there are none besides
those that were there. -/
structure TagLaws (decode : Dict Bytes → Metadata.Torrent → Option Metadata.Torrent) : Prop where
  files : ∀ {d t t' key v}, Candidate "files" d key v → t.files = [] → decode d t = some t' →
    ∃ key v, Candidate "files" d key v ∧ ∀ xs, v = .list xs → List.Forall₂ HasLength xs t'.files
  absent : ∀ {d t t'}, (∀ key v, ¬ Candidate "files" d key v) → decode d t = some t' → t'.files = t.files

/-- The tag has this value to take and no other. -/
def Under (tag : String) (d : Dict Bytes) (v : Value Bytes) : Prop :=
  (∃ key, Candidate tag d key v) ∧ ∀ key v', Candidate tag d key v' → v' = v

/-- An entry under the tag itself comes before all others. -/
theorem under_of_lookup {tag : String} {d : Dict Bytes} {v : Value Bytes} (h : d.lookup (ascii tag) = some v) :
    Under tag d v := by
  refine ⟨⟨ascii tag,h,decide_eq_true rfl,fun _ => rfl⟩,?_⟩
  rintro key v' ⟨hlookup,-,hexact⟩
  rw [hexact (by rw [h]; rfl),h] at hlookup
  exact (Option.some.inj hlookup).symm

/-- A dictionary with a list of files of these lengths. -/
structure MultiFile (d : Dict Bytes) (lengths : List Int64) : Prop where
  files : ∃ xs, Under "files" d (.list xs) ∧
    List.Forall₂ (fun x n => ∃ m, x = .map m ∧ Under "length" m (.int n)) xs lengths
  nonneg : ∀ n ∈ lengths, 0 ≤ n.toInt

/-- A dictionary with a length of its own, and without any entry for the files. -/
structure SingleFile (d : Dict Bytes) (n : Int64) : Prop where
  files : ∀ key v, ¬ Candidate "files" d key v
  length : d.lookup (ascii "length") = some (.int n)
  nonneg : 0 ≤ n.toInt

def total (lengths : List Int64) : ℤ := (lengths.map Int64.toInt).sum

theorem total_nonneg {lengths : List Int64} (h : ∀ n ∈ lengths, 0 ≤ n.toInt) : 0 ≤ total lengths := by
  induction lengths with
  | nil => exact le_rfl
  | cons n lengths ih =>
    have hn := h n List.mem_cons_self
    have hrest := ih (fun m hm => h m (List.mem_cons_of_mem _ hm))
    exact Int.add_nonneg hn hrest

/-- The sum does not wrap around while the total has room. -/
theorem foldl_add_toInt {lengths : List Int64} {n : Int64} (h : ∀ m ∈ lengths, 0 ≤ m.toInt) (hn : 0 ≤ n.toInt)
    (hroom : n.toInt + total lengths < 2^63) :
    (lengths.foldl (· + ·) n).toInt = n.toInt + total lengths := by
  induction lengths generalizing n with
  | nil => exact (Int.add_zero _).symm
  | cons m lengths ih =>
    have hm := h m List.mem_cons_self
    have hlengths : ∀ m ∈ lengths, 0 ≤ m.toInt := fun k hk => h k (List.mem_cons_of_mem _ hk)
    have hrest := total_nonneg hlengths
    have htotal : total (m :: lengths) = m.toInt + total lengths := rfl
    rw [htotal] at hroom ⊢
    have hsum : (n + m).toInt = n.toInt + m.toInt := by
      rw [Int64.toInt_add]
      apply Int.bmod_eq_of_le
      · omega
      · omega
    rw [List.foldl_cons,ih hlengths (by omega) (by omega),hsum]
    omega

theorem newTorrent_length (now : ℤ) (t : Metadata.Torrent) :
    (newTorrentFromBTTorrent now t).length = (t.files.map Metadata.File.length).foldl (· + ·) 0 := by
  rw [newTorrentFromBTTorrent,addFiles_eq,List.foldl_map]

theorem HasLength.eq_of_under {m : Dict Bytes} {f : Metadata.File} {n : Int64} (h : HasLength (.map m) f)
    (hn : Under "length" m (.int n)) : f.length = n := by
  obtain ⟨⟨key,hkey⟩,honly⟩ := hn
  obtain ⟨key',v,hv,hlength⟩ := h m rfl ⟨key,_,hkey⟩
  exact hlength n (honly key' v hv)

theorem TagLaws.lengths (laws : TagLaws decode) {d : Dict Bytes} {t t' : Metadata.Torrent} {lengths : List Int64}
    (hfiles : MultiFile d lengths) (ht : t.files = []) (h : decode d t = some t') :
    t'.files.map Metadata.File.length = lengths := by
  obtain ⟨⟨xs,⟨⟨key,hkey⟩,honly⟩,hlengths⟩,-⟩ := hfiles
  obtain ⟨key',v,hv,hlist⟩ := laws.files hkey ht h
  have hdecoded := hlist xs (honly key' v hv)
  generalize t'.files = files at hdecoded
  clear hkey honly hlist
  induction hdecoded generalizing lengths with
  | nil =>
    cases hlengths
    rfl
  | cons hx _ ih =>
    cases hlengths with
    | cons hn hlengths =>
      obtain ⟨m,rfl,hm⟩ := hn
      rw [List.map_cons,hx.eq_of_under hm,ih hlengths]

section Sample

/-- The value that the tag takes, or what was there. -/
def tagged {A : Type} (d : Dict Bytes) (tag : String) (convert : Value Bytes → Option A) (old : A) : Option A :=
  match pick tag d with
  | none => some old
  | some e => convert e.2

theorem tagged_of_pick {A : Type} {d : Dict Bytes} {tag : String} {e : Bytes × Value Bytes} (h : pick tag d = some e)
    (convert : Value Bytes → Option A) (old : A) : tagged d tag convert old = convert e.2 := by
  rw [tagged,h]

def octets : Value Bytes → Option Bytes
  | .bytes b => some b
  | _ => none

def integer : Value Bytes → Option Int64
  | .int n => some n
  | _ => none

def listOf {A : Type} (convert : Value Bytes → Option A) : Value Bytes → Option (List A)
  | .list xs => xs.mapM convert
  | _ => none

/-- The entries that no tag takes. -/
def remain (tags : List String) (d : Dict Bytes) : Dict Bytes :=
  d.filter (fun e => !(tags.filterMap (fun tag => (pick tag d).map Prod.fst)).contains e.1)

def decodeFile : Value Bytes → Option Metadata.File
  | .map m => do
    let ed2k ← tagged m "ed2k" octets []
    let fileHash ← tagged m "filehash" octets []
    let length ← tagged m "length" integer 0
    let path ← tagged m "path" (listOf octets) []
    return ⟨ed2k,fileHash,length,path,remain ["ed2k","filehash","length","path"] m⟩
  | _ => none

/-- A decoder that follows the tags and converts no other types. -/
def tagDecode (d : Dict Bytes) (t : Metadata.Torrent) : Option Metadata.Torrent := do
  let name ← tagged d "name" octets t.name
  let pieceLength ← tagged d "piece length" integer t.pieceLength
  let pieces ← tagged d "pieces" octets t.pieces
  let publisher ← tagged d "publisher" octets t.publisher
  let files ← tagged d "files" (listOf decodeFile) t.files
  let source ← tagged d "source" octets t.source
  return ⟨t.infoHash,name,pieceLength,pieces,publisher,files,source,
    remain ["name","piece length","pieces","publisher","files","source"] d⟩

theorem decodeFile_hasLength {x : Value Bytes} {f : Metadata.File} (h : decodeFile x = some f) : HasLength x f := by
  rintro m rfl ⟨key,v,hv⟩
  unfold decodeFile at h
  obtain ⟨ed2k,-,h⟩ := Option.bind_eq_some_iff.mp h
  obtain ⟨fileHash,-,h⟩ := Option.bind_eq_some_iff.mp h
  obtain ⟨length,hlength,h⟩ := Option.bind_eq_some_iff.mp h
  obtain ⟨path,-,h⟩ := Option.bind_eq_some_iff.mp h
  cases h
  cases hpick : pick "length" m with
  | none => exact absurd hv (pick_eq_none hpick key v)
  | some e =>
    refine ⟨e.1,e.2,pick_eq_some hpick,?_⟩
    intro n hn
    rw [tagged_of_pick hpick,hn] at hlength
    exact (Option.some.inj hlength).symm

theorem tagDecode_files {d : Dict Bytes} {t t' : Metadata.Torrent} (h : tagDecode d t = some t') :
    tagged d "files" (listOf decodeFile) t.files = some t'.files := by
  unfold tagDecode at h
  obtain ⟨name,-,h⟩ := Option.bind_eq_some_iff.mp h
  obtain ⟨pieceLength,-,h⟩ := Option.bind_eq_some_iff.mp h
  obtain ⟨pieces,-,h⟩ := Option.bind_eq_some_iff.mp h
  obtain ⟨publisher,-,h⟩ := Option.bind_eq_some_iff.mp h
  obtain ⟨files,hfiles,h⟩ := Option.bind_eq_some_iff.mp h
  obtain ⟨source,-,h⟩ := Option.bind_eq_some_iff.mp h
  cases h
  exact hfiles

theorem tagDecode_laws : TagLaws tagDecode where
  files := by
    intro d t t' key v hv _ h
    have hfiles := tagDecode_files h
    cases hpick : pick "files" d with
    | none => exact absurd hv (pick_eq_none hpick key v)
    | some e =>
      refine ⟨e.1,e.2,pick_eq_some hpick,?_⟩
      intro xs hxs
      rw [tagged_of_pick hpick,hxs] at hfiles
      exact (forall₂_of_mapM hfiles).imp fun _ _ => decodeFile_hasLength
  absent := by
    intro d t t' hnone h
    have hfiles := tagDecode_files h
    cases hpick : pick "files" d with
    | none =>
      rw [tagged,hpick] at hfiles
      exact (Option.some.inj hfiles).symm
    | some e => exact absurd (pick_eq_some hpick) (hnone e.1 e.2)

/-- Two files of three and four octets. -/
def twoFiles : Dict Bytes :=
  [(ascii "files",.list [.map [(ascii "length",.int 3)],.map [(ascii "length",.int 4)]])]

theorem twoFiles_multiFile : MultiFile twoFiles [3,4] where
  files := ⟨_,under_of_lookup rfl,.cons ⟨_,rfl,under_of_lookup rfl⟩ (.cons ⟨_,rfl,under_of_lookup rfl⟩ .nil)⟩
  nonneg := by
    intro n hn
    rcases List.mem_pair.mp hn with rfl | rfl
    · decide
    · decide

end Sample

/-- The stored length is that of the contents exactly if the lengths of several files do not add up to more
than 63 bits can hold, and a single file is empty. -/
theorem stored_length_iff (laws : TagLaws decode) (d : Dict Bytes) (infoHash : Bytes) (t : Metadata.Torrent)
    (h : decode d { infoHash := infoHash, name := [] } = some t) (now : ℤ) :
    (∀ lengths, MultiFile d lengths →
      ((newTorrentFromBTTorrent now t).length.toInt = total lengths ↔ total lengths < 2^63)) ∧
    (∀ n, SingleFile d n → ((newTorrentFromBTTorrent now t).length.toInt = n.toInt ↔ n = 0)) := by
  constructor
  · intro lengths hfiles
    have hlength := newTorrent_length now t
    rw [laws.lengths hfiles rfl h] at hlength
    constructor
    · intro he
      rw [← he]
      exact Int64.toInt_lt _
    · intro hroom
      rw [hlength,foldl_add_toInt hfiles.nonneg (by decide) (by simpa using hroom)]
      exact Int.zero_add _
  · intro n hfile
    have hnone : t.files = [] := laws.absent hfile.files h
    have hlength := newTorrent_length now t
    rw [hnone] at hlength
    rw [hlength,Int64.toInt_inj]
    exact eq_comm

theorem twoFiles_stored_seven :
    ∃ t, tagDecode twoFiles { infoHash := [1], name := [] } = some t ∧
      (newTorrentFromBTTorrent 0 t).length.toInt = 7 := by
  obtain ⟨t,ht⟩ : ∃ t, tagDecode twoFiles { infoHash := [1], name := [] } = some t :=
    Option.isSome_iff_exists.mp (by decide +kernel)
  exact ⟨t,ht,((stored_length_iff tagDecode_laws twoFiles [1] t ht 0).1 _ twoFiles_multiFile).mpr (by decide)⟩

/-- A single file of five octets is stored with length zero, and two of 2^62 octets with a negative one. -/
theorem single_file_stored_empty :
    TagLaws tagDecode ∧
    ((tagDecode [(ascii "length",.int 5),(ascii "name",.bytes (ascii "x"))] { infoHash := [1], name := [] }).map
      (fun t => (newTorrentFromBTTorrent 0 t).length)) = some 0 ∧
    ((tagDecode [(ascii "files",.list [.map [(ascii "length",.int (2^62))],.map [(ascii "length",.int (2^62))]]),
        (ascii "name",.bytes (ascii "x"))] { infoHash := [1], name := [] }).map
      (fun t => (newTorrentFromBTTorrent 0 t).length)) = some (-2^63) :=
  ⟨tagDecode_laws,by decide +kernel,by decide +kernel⟩

end Length

end DhtOcean.Ingestion
