import DhtOcean.Store.Ingestion

/-! # The collection as a store of torrents

All services write into one collection. Whole torrents are upserted by the crawler, by
its consumer of messages and by the ocean; everything else sets a few fields of a
document that is there. So every document decodes, and the collection is a map from
info hashes to torrents.
-/
namespace DhtOcean.Documents
open Foundation Ingestion

section Decode
variable {A : Type}

/-- An absent field and a null leave the zero value; `none` is a value of another type. -/
def decodeField (zero : A) (convert : Bson → Option A) : Option Bson → Option A
  | none => some zero
  | some .null => some zero
  | some v => convert v

def string : Bson → Option Bytes
  | .string s => some s
  | _ => none

def int64 : Bson → Option Int64
  | .int64 n => some n
  | _ => none

def bool : Bson → Option Bool
  | .bool b => some b
  | _ => none

def date : Bson → Option (Option ℤ)
  | .date ms => some (some ms)
  | _ => none

/-- An integer that does not fit is an error. -/
def uint32 : Bson → Option (Option UInt32)
  | .int64 n => if 0 ≤ n.toInt ∧ n.toInt < 2^32 then some (some (UInt32.ofNat n.toInt.toNat)) else none
  | _ => none

def array (convert : Bson → Option A) : Bson → Option (List A)
  | .array xs => xs.mapM convert
  | _ => none

def file : Bson → Option File
  | .doc fields => do
    let length ← decodeField 0 int64 (fields.lookup (ascii "length"))
    let paths ← decodeField [] (array string) (fields.lookup (ascii "paths"))
    let fileHash ← decodeField [] string (fields.lookup (ascii "file_hash"))
    return ⟨length,paths,fileHash⟩
  | _ => none

/-- A document as a torrent. -/
def decode (doc : Document) : Option Torrent := do
  let infoHash ← decodeField [] string (doc (ascii "_id"))
  let name ← decodeField [] string (doc (ascii "name"))
  let files ← decodeField [] (array file) (doc (ascii "files"))
  let tags ← decodeField none (fun v => (array string v).map some) (doc (ascii "tags"))
  let type ← decodeField [] string (doc (ascii "type"))
  let length ← decodeField 0 int64 (doc (ascii "length"))
  let createdAt ← decodeField none date (doc (ascii "created_at"))
  let updatedAt ← decodeField none date (doc (ascii "updated_at"))
  let seeders ← decodeField none uint32 (doc (ascii "seeders"))
  let leechers ← decodeField none uint32 (doc (ascii "leechers"))
  let trackerUpdatedAt ← decodeField none date (doc (ascii "tracker_updated_at"))
  let searchUpdated ← decodeField false bool (doc (ascii "search_updated"))
  let trackerLastTriedAt ← decodeField none date (doc (ascii "tracker_last_tried_at"))
  let raw ← decodeField none (fun v => some (some v)) (doc (ascii "raw"))
  return ⟨infoHash,name,files,tags,type,length,createdAt,updatedAt,seeders,leechers,trackerUpdatedAt,searchUpdated,
    trackerLastTriedAt,raw⟩

end Decode

section Services

/-- The fields that services set in a document of their own accord. -/
inductive Change
  /-- `UpdateTracker` of the ocean, and `handleResult` of the tracker. -/
  | tracker (now : ℤ) (seeders leechers : UInt32)
  /-- `ListTorrentInfoForTracker`, `refreshTracker` and `Recover`. -/
  | tried (now : ℤ)
  /-- `batchSaveToIndex`. -/
  | indexed
  deriving DecidableEq

def Change.fields : Change → List (Bytes × Bson)
  | .tracker now seeders leechers =>
    [(ascii "seeders",.ofUint32 (some seeders)),
      (ascii "leechers",.ofUint32 (some leechers)),
      (ascii "tracker_updated_at",.date now),
      (ascii "updated_at",.date now),
      (ascii "search_updated",.bool false)]
  | .tried now => [(ascii "tracker_last_tried_at",.date now)]
  | .indexed => [(ascii "search_updated",.bool true)]

/-- One write to one document. -/
inductive Write
  | upsert (t : Torrent)
  | update (id : Bytes) (c : Change)

/-- `UpdateByID`; a document that is not there is not inserted. -/
def updateByID (coll : Collection) (id : Bytes) (fields : List (Bytes × Bson)) : Collection := fun i =>
  if i = id then (coll i).map (setFields fields) else coll i

def write (coll : Collection) : Write → Collection
  | .upsert t => coll.update t
  | .update id c => updateByID coll id c.fields

inductive FindError
  | noDocuments
  | undecodable
  deriving DecidableEq, Repr

def findByID (coll : Collection) (id : Bytes) : Except FindError Torrent :=
  match coll id with
  | none => .error .noDocuments
  | some doc => match decode doc with
    | none => .error .undecodable
    | some t => .ok t

def corrupted (t : Torrent) : Bool := t.files.any (fun f => f.paths.length == 0)

def ifInfoHashExists (coll : Collection) (infoHash : Bytes) : Except FindError Bool :=
  match findByID coll (encodeHex infoHash) with
  | .error .noDocuments => .ok false
  | .error err => .error err
  | .ok t => .ok (!corrupted t)

/-- The loop with the results so far. -/
def existLoop (coll : Collection) : List Bytes → List Bool → Except FindError (List Bool)
  | [], results => .ok results
  | infoHash :: infoHashes, results => match findByID coll (encodeHex infoHash) with
    | .error .noDocuments => existLoop coll infoHashes (results ++ [false])
    | .error err => .error err
    | .ok t => existLoop coll infoHashes (results ++ [!corrupted t])

def batchInfoHashExist (coll : Collection) (infoHashes : List Bytes) : Except FindError (List Bool) :=
  existLoop coll infoHashes []

end Services

section Store

/-- What the collection is for: torrents by their info hash. -/
abbrev Store := Bytes → Option Torrent

def Change.apply (t : Torrent) : Change → Torrent
  | .tracker now seeders leechers => { t with
      seeders := some seeders
      leechers := some leechers
      trackerUpdatedAt := some now
      updatedAt := some now
      searchUpdated := false }
  | .tried now => { t with trackerLastTriedAt := some now }
  | .indexed => { t with searchUpdated := true }

def Store.write (store : Store) : Write → Store
  | .upsert t => fun id => if id = t.infoHash then some t else store id
  | .update id c => fun i => if i = id then (store i).map c.apply else store i

theorem Store.write_upsert (store : Store) (t : Torrent) (id : Bytes) :
    store.write (.upsert t) id = if id = t.infoHash then some t else store id := rfl

theorem Store.write_update (store : Store) (i : Bytes) (c : Change) (id : Bytes) :
    store.write (.update i c) id = if id = i then (store id).map c.apply else store id := rfl

end Store

/-- The document says what the torrent says, field by field. -/
structure Decodes (doc : Document) (t : Torrent) : Prop where
  infoHash : decodeField [] string (doc (ascii "_id")) = some t.infoHash
  name : decodeField [] string (doc (ascii "name")) = some t.name
  files : decodeField [] (array file) (doc (ascii "files")) = some t.files
  tags : decodeField none (fun v => (array string v).map some) (doc (ascii "tags")) = some t.tags
  type : decodeField [] string (doc (ascii "type")) = some t.type
  length : decodeField 0 int64 (doc (ascii "length")) = some t.length
  createdAt : decodeField none date (doc (ascii "created_at")) = some t.createdAt
  updatedAt : decodeField none date (doc (ascii "updated_at")) = some t.updatedAt
  seeders : decodeField none uint32 (doc (ascii "seeders")) = some t.seeders
  leechers : decodeField none uint32 (doc (ascii "leechers")) = some t.leechers
  trackerUpdatedAt : decodeField none date (doc (ascii "tracker_updated_at")) = some t.trackerUpdatedAt
  searchUpdated : decodeField false bool (doc (ascii "search_updated")) = some t.searchUpdated
  trackerLastTriedAt : decodeField none date (doc (ascii "tracker_last_tried_at")) = some t.trackerLastTriedAt
  raw : decodeField none (fun v => some (some v)) (doc (ascii "raw")) = some t.raw

theorem Decodes.decode_eq {doc : Document} {t : Torrent} (h : Decodes doc t) : decode doc = some t := by
  simp only [decode,h.infoHash,h.name,h.files,h.tags,h.type,h.length,h.createdAt,h.updatedAt,h.seeders,h.leechers,
    h.trackerUpdatedAt,h.searchUpdated,h.trackerLastTriedAt,h.raw,Option.bind_eq_bind,Option.bind_some]
  rfl

section RoundTrip

theorem strings_ofStrings (xs : List Bytes) : array string (.ofStrings xs) = some xs :=
  @mapM_map_some Bytes Bson .string string xs (fun _ _ => rfl)

theorem uint32_ofUint32 (n : Option UInt32) : decodeField none uint32 (some (.ofUint32 n)) = some n := by
  cases n with
  | none => rfl
  | some n =>
    have hlt := n.toNat_lt
    have hint : (Int64.ofNat n.toNat).toInt = n.toNat := Int64.toInt_ofNat_of_lt (by omega)
    have hrange : 0 ≤ (n.toNat : ℤ) ∧ (n.toNat : ℤ) < 2^32 := by omega
    change uint32 (.int64 (Int64.ofNat n.toNat)) = some (some n)
    rw [uint32,hint,if_pos hrange,Int.toNat_natCast,UInt32.ofNat_toNat]

theorem date_ofDate (d : Option ℤ) : decodeField none date (some (.ofDate d)) = some d := by
  cases d <;> rfl

theorem lookup_unlessEmpty (empty : Bool) (key : String) (v : Bson) (rest : List (Bytes × Bson)) (k : Bytes) :
    (Bson.unlessEmpty empty key v ++ rest).lookup k = if k = ascii key ∧ empty = false then some v else rest.lookup k := by
  cases empty with
  | true => simp [Bson.unlessEmpty]
  | false =>
    by_cases h : k = ascii key
    · simp [Bson.unlessEmpty,h]
    · have hne : (k == ascii key) = false := beq_eq_false_iff_ne.mpr h
      simp [Bson.unlessEmpty,List.lookup_cons,h,hne]

/-- A field that an empty value leaves out is zero when it is read. -/
theorem decodeField_omitted {A : Type} {zero value : A} {convert : Bson → Option A} {empty : Bool} {v : Bson}
    (hempty : empty = true → zero = value) (hv : v ≠ .null) (hconvert : convert v = some value) :
    decodeField zero convert (if empty = false then some v else none) = some value := by
  cases empty with
  | true => exact congrArg some (hempty rfl)
  | false =>
    rw [if_pos rfl]
    cases v with
    | null => exact absurd rfl hv
    | _ => exact hconvert

theorem file_ofFile (f : File) : file (.ofFile f) = some f := by
  have hlookup (k : Bytes) := lookup_unlessEmpty f.fileHash.isEmpty "file_hash" (.string f.fileHash) [] k
  rw [List.append_nil] at hlookup
  have hlength : decodeField 0 int64 (if (f.length == 0) = false then some (.int64 f.length) else none) = some f.length :=
    decodeField_omitted (fun h => (beq_iff_eq.mp h).symm) nofun rfl
  have hpaths : decodeField [] (array string) (if f.paths.isEmpty = false then some (.ofStrings f.paths) else none) =
      some f.paths := decodeField_omitted (fun h => (List.isEmpty_iff.mp h).symm) nofun (strings_ofStrings f.paths)
  have hhash : decodeField [] string (if f.fileHash.isEmpty = false then some (.string f.fileHash) else none) =
      some f.fileHash := decodeField_omitted (fun h => (List.isEmpty_iff.mp h).symm) nofun rfl
  have hnames : ascii "length" ≠ ascii "paths" ∧ ascii "length" ≠ ascii "file_hash" ∧ ascii "paths" ≠ ascii "file_hash" := by
    decide
  obtain ⟨h₁,h₂,h₃⟩ := hnames
  simp only [file,Bson.ofFile,List.append_assoc,lookup_unlessEmpty,hlookup,List.lookup_nil,eq_false h₁,eq_false h₂,
    eq_false h₃,eq_false h₁.symm,eq_false h₂.symm,eq_false h₃.symm,true_and,false_and,if_false,Option.bind_eq_bind]
  rw [hlength,hpaths,hhash]
  rfl

end RoundTrip

section Writes
variable {doc : Document} {t : Torrent}

/-- An upsert leaves nothing of the document that was there: it reads as the torrent. A nil interface
is stored as a null, so a null is none of its values. -/
theorem decodes_upserted (hraw : t.raw ≠ some .null) (doc : Document) : Decodes (setFields t.fields doc) t := by
  have hfield : ∀ e ∈ t.fields, setFields t.fields doc e.1 = some e.2 :=
    fun e he => setFields_of_mem t.nodup_fields he doc
  generalize setFields t.fields doc = doc' at hfield ⊢
  simp only [Torrent.fields,List.forall_mem_cons] at hfield
  obtain ⟨hid,hname,hfiles,htags,htype,hlength,hcreated,hupdated,hseeders,hleechers,htracker,hsearch,htried,hraw',-⟩ := hfield
  exact {
    infoHash := by rw [hid]; rfl
    name := by rw [hname]; rfl
    files := by rw [hfiles]; exact mapM_map_some (fun f _ => file_ofFile f)
    tags := by
      rw [htags]
      cases t.tags with
      | none => rfl
      | some tags => exact congrArg (Option.map some) (strings_ofStrings tags)
    type := by rw [htype]; rfl
    length := by rw [hlength]; rfl
    createdAt := by rw [hcreated]; exact date_ofDate t.createdAt
    updatedAt := by rw [hupdated]; exact date_ofDate t.updatedAt
    seeders := by rw [hseeders]; exact uint32_ofUint32 t.seeders
    leechers := by rw [hleechers]; exact uint32_ofUint32 t.leechers
    trackerUpdatedAt := by rw [htracker]; exact date_ofDate t.trackerUpdatedAt
    searchUpdated := by rw [hsearch]; rfl
    trackerLastTriedAt := by rw [htried]; exact date_ofDate t.trackerLastTriedAt
    raw := by
      rw [hraw']
      cases hr : t.raw with
      | none => rfl
      | some v =>
        cases v with
        | null => exact absurd hr hraw
        | _ => rfl }

theorem setFields_other {fields : List (Bytes × Bson)} {key : Bytes} (h : key ∉ fields.map Prod.fst) (doc : Document) :
    setFields fields doc key = doc key := by
  have hnone : fields.lookup key = none := by
    rw [List.lookup_eq_none_iff]
    intro e he
    rw [bne_iff_ne]
    rintro rfl
    exact h (List.mem_map_of_mem he)
  rw [setFields,hnone,Option.none_or]

theorem Change.nodup_fields (c : Change) : (c.fields.map Prod.fst).Nodup := by
  cases c <;> (simp only [Change.fields,List.map_cons,List.map_nil]; decide +kernel)

/-- Setting fields of a document changes the torrent in those and in no others. -/
theorem Decodes.set (h : Decodes doc t) (c : Change) : Decodes (setFields c.fields doc) (c.apply t) := by
  have hset : ∀ e ∈ c.fields, setFields c.fields doc e.1 = some e.2 :=
    fun e he => setFields_of_mem c.nodup_fields he doc
  have kept {A : Type} {zero value : A} {convert : Bson → Option A} {key : Bytes}
      (hv : decodeField zero convert (doc key) = some value) (hkey : key ∉ c.fields.map Prod.fst) :
      decodeField zero convert (setFields c.fields doc key) = some value := by rw [setFields_other hkey,hv]
  generalize setFields c.fields doc = doc' at hset kept ⊢
  cases c with
  | tracker now seeders leechers =>
    simp only [Change.fields,List.forall_mem_cons] at hset
    simp only [Change.fields,List.map_cons,List.map_nil] at kept
    obtain ⟨hseeders,hleechers,htracker,hupdated,hsearch,-⟩ := hset
    exact {
      infoHash := kept h.infoHash (by decide)
      name := kept h.name (by decide)
      files := kept h.files (by decide)
      tags := kept h.tags (by decide)
      type := kept h.type (by decide)
      length := kept h.length (by decide)
      createdAt := kept h.createdAt (by decide)
      updatedAt := by rw [hupdated]; rfl
      seeders := by rw [hseeders]; exact uint32_ofUint32 (some seeders)
      leechers := by rw [hleechers]; exact uint32_ofUint32 (some leechers)
      trackerUpdatedAt := by rw [htracker]; rfl
      searchUpdated := by rw [hsearch]; rfl
      trackerLastTriedAt := kept h.trackerLastTriedAt (by decide)
      raw := kept h.raw (by decide) }
  | tried now =>
    simp only [Change.fields,List.forall_mem_cons] at hset
    simp only [Change.fields,List.map_cons,List.map_nil] at kept
    obtain ⟨htried,-⟩ := hset
    exact {
      infoHash := kept h.infoHash (by decide)
      name := kept h.name (by decide)
      files := kept h.files (by decide)
      tags := kept h.tags (by decide)
      type := kept h.type (by decide)
      length := kept h.length (by decide)
      createdAt := kept h.createdAt (by decide)
      updatedAt := kept h.updatedAt (by decide)
      seeders := kept h.seeders (by decide)
      leechers := kept h.leechers (by decide)
      trackerUpdatedAt := kept h.trackerUpdatedAt (by decide)
      searchUpdated := kept h.searchUpdated (by decide)
      trackerLastTriedAt := by rw [htried]; rfl
      raw := kept h.raw (by decide) }
  | indexed =>
    simp only [Change.fields,List.forall_mem_cons] at hset
    simp only [Change.fields,List.map_cons,List.map_nil] at kept
    obtain ⟨hsearch,-⟩ := hset
    exact {
      infoHash := kept h.infoHash (by decide)
      name := kept h.name (by decide)
      files := kept h.files (by decide)
      tags := kept h.tags (by decide)
      type := kept h.type (by decide)
      length := kept h.length (by decide)
      createdAt := kept h.createdAt (by decide)
      updatedAt := kept h.updatedAt (by decide)
      seeders := kept h.seeders (by decide)
      leechers := kept h.leechers (by decide)
      trackerUpdatedAt := kept h.trackerUpdatedAt (by decide)
      searchUpdated := by rw [hsearch]; rfl
      trackerLastTriedAt := kept h.trackerLastTriedAt (by decide)
      raw := kept h.raw (by decide) }

end Writes

section Refinement
variable {coll : Collection} {store : Store}

/-- Every document reads as the torrent that the store has under its ID. -/
def Represents (coll : Collection) (store : Store) : Prop := ∀ id, Option.Rel Decodes (coll id) (store id)

/-- A null in `raw` is a nil interface. -/
def Write.Valid : Write → Prop
  | .upsert t => t.raw ≠ some .null
  | .update _ _ => True

theorem Represents.write (h : Represents coll store) {w : Write} (hw : w.Valid) :
    Represents (write coll w) (store.write w) := by
  intro id
  cases w with
  | upsert t =>
    simp only [Documents.write,Collection.update,Store.write]
    by_cases hid : id = t.infoHash
    · rw [if_pos hid,if_pos hid]
      exact .some (decodes_upserted hw _)
    · rw [if_neg hid,if_neg hid]
      exact h id
  | update i c =>
    simp only [Documents.write,updateByID,Store.write]
    by_cases hid : id = i
    · rw [if_pos hid,if_pos hid]
      have hrel := h id
      generalize coll id = doc,store id = t at hrel ⊢
      cases hrel with
      | none => exact .none
      | some hdoc => exact .some (hdoc.set c)
    · rw [if_neg hid,if_neg hid]
      exact h id

/-- The collection behind writes to an empty one. -/
def written (ws : List Write) : Collection := ws.foldl write fun _ => none

def stored (ws : List Write) : Store := ws.foldl Store.write fun _ => none

theorem Represents.writes (h : Represents coll store) {ws : List Write} (hws : ∀ w ∈ ws, w.Valid) :
    Represents (ws.foldl Documents.write coll) (ws.foldl Store.write store) := by
  induction ws generalizing coll store with
  | nil => exact h
  | cons w ws ih =>
    obtain ⟨hw,hws⟩ := List.forall_mem_cons.mp hws
    exact ih (h.write hw) hws

theorem represents_written {ws : List Write} (hws : ∀ w ∈ ws, w.Valid) : Represents (written ws) (stored ws) :=
  Represents.writes (fun _ => .none) hws

theorem Represents.findByID (h : Represents coll store) (id : Bytes) :
    findByID coll id = (store id).elim (.error .noDocuments) .ok := by
  have hrel := h id
  unfold Documents.findByID
  generalize coll id = doc,store id = t at hrel ⊢
  cases hrel with
  | none => rfl
  | some hdoc => simp only [hdoc.decode_eq,Option.elim]

end Refinement

/-- Whatever the services write, every document can be read, and what is read is what the writes make of
the torrent field by field. -/
theorem findByID_written (ws : List Write) (hws : ∀ w ∈ ws, w.Valid) (id : Bytes) :
    findByID (written ws) id = (stored ws id).elim (.error .noDocuments) .ok :=
  (represents_written hws).findByID id

/-- A torrent that is committed, tried and found at the tracker, another one that the tracker has counts of, and one
with a file that has no name. -/
def sampleWrites : List Write :=
  [.upsert (newTorrentFromCommitRequest 0 ⟨[1],ascii "x",[⟨3,[ascii "a"],[]⟩]⟩),.update (encodeHex [1]) (.tried 4),
    .update (encodeHex [1]) (.tracker 5 7 2),.update (encodeHex [2]) (.tracker 5 1 1),
    .upsert (newTorrentFromCommitRequest 6 ⟨[3],ascii "y",[⟨3,[],[]⟩]⟩)]

theorem sampleWrites_valid : ∀ w ∈ sampleWrites, w.Valid := by
  simp [sampleWrites,Write.Valid,newTorrentFromCommitRequest,addFiles]

theorem sampleWrites_found :
    (findByID (written sampleWrites) (encodeHex [1])).map (fun t => (t.length,t.createdAt,t.seeders,t.trackerLastTriedAt)) =
      .ok (3,some 0,some 7,some 4) ∧
    findByID (written sampleWrites) (encodeHex [2]) = .error .noDocuments := by
  rw [findByID_written sampleWrites sampleWrites_valid,findByID_written sampleWrites sampleWrites_valid]
  exact ⟨rfl,rfl⟩

section Existence

/-- The torrent that the write puts under the ID. -/
def Write.upserted (id : Bytes) : Write → Option Torrent
  | .upsert t => if id = t.infoHash then some t else none
  | .update _ _ => none

/-- The torrent that was last upserted under the ID. -/
def lastUpsert (ws : List Write) (id : Bytes) : Option Torrent := (ws.filterMap (Write.upserted id)).getLast?

theorem lastUpsert_concat (ws : List Write) (w : Write) (id : Bytes) :
    lastUpsert (ws ++ [w]) id = (w.upserted id).or (lastUpsert ws id) := by
  rw [lastUpsert,List.filterMap_append,List.getLast?_append,lastUpsert]
  congr 1
  cases h : w.upserted id <;> simp [h]

theorem files_apply (c : Change) (t : Torrent) : (c.apply t).files = t.files := by
  cases c <;> rfl

/-- No service but those that upsert a torrent changes its files. -/
theorem files_stored (ws : List Write) (id : Bytes) :
    (stored ws id).map Torrent.files = (lastUpsert ws id).map Torrent.files := by
  induction ws using List.reverseRecOn with
  | nil => rfl
  | append_singleton ws w ih =>
    rw [stored,List.foldl_concat,← stored,lastUpsert_concat]
    cases w with
    | upsert t =>
      by_cases hid : id = t.infoHash
      · simp only [Store.write,Write.upserted,if_pos hid,Option.some_or]
      · simpa only [Store.write,Write.upserted,if_neg hid,Option.none_or] using ih
    | update i c =>
      rw [Write.upserted,Option.none_or,← ih,Store.write]
      dsimp only
      split
      · rw [Option.map_map]
        exact congrArg (Option.map · _) (funext (files_apply c))
      · rfl

/-- What the crawler is told about a hash. -/
def known (ws : List Write) (infoHash : Bytes) : Bool := (lastUpsert ws (encodeHex infoHash)).any (!corrupted ·)

theorem any_stored (ws : List Write) (infoHash : Bytes) :
    (stored ws (encodeHex infoHash)).any (!corrupted ·) = known ws infoHash := by
  have hfiles : ∀ t : Option Torrent, t.any (!corrupted ·) = (t.map Torrent.files).any (!·.any (·.paths.length == 0)) := by
    intro t
    cases t <;> rfl
  rw [known,hfiles,hfiles,files_stored]

theorem ifInfoHashExists_written {ws : List Write} (hws : ∀ w ∈ ws, w.Valid) (infoHash : Bytes) :
    ifInfoHashExists (written ws) infoHash = .ok (known ws infoHash) := by
  rw [ifInfoHashExists,(represents_written hws).findByID,← any_stored]
  cases stored ws (encodeHex infoHash) <;> rfl

theorem existLoop_cons (coll : Collection) (infoHash : Bytes) (infoHashes : List Bytes) (results : List Bool) :
    existLoop coll (infoHash :: infoHashes) results =
      (ifInfoHashExists coll infoHash).bind fun exist => existLoop coll infoHashes (results ++ [exist]) := by
  rw [existLoop,ifInfoHashExists]
  rcases findByID coll (encodeHex infoHash) with (_ | _) | t <;> rfl

theorem existLoop_written {ws : List Write} (hws : ∀ w ∈ ws, w.Valid) (infoHashes : List Bytes) (results : List Bool) :
    existLoop (written ws) infoHashes results = .ok (results ++ infoHashes.map (known ws)) := by
  induction infoHashes generalizing results with
  | nil => rw [existLoop,List.map_nil,List.append_nil]
  | cons infoHash infoHashes ih =>
    rw [existLoop_cons,ifInfoHashExists_written hws,List.map_cons]
    exact (ih _).trans (by rw [List.append_assoc,List.singleton_append])

end Existence

/-- A hash is reported as known exactly if the torrent that was last upserted under it is not corrupted, whatever
has been written to its document since. -/
theorem exists_iff_last_upsert (ws : List Write) (hws : ∀ w ∈ ws, w.Valid) :
    (∀ infoHash, ifInfoHashExists (written ws) infoHash = .ok (known ws infoHash)) ∧
    ∀ infoHashes, batchInfoHashExist (written ws) infoHashes = .ok (infoHashes.map (known ws)) :=
  ⟨ifInfoHashExists_written hws,fun infoHashes => existLoop_written hws infoHashes []⟩

/-- Counts alone make no document, and the torrent with a nameless file is to be fetched again. -/
theorem sampleWrites_known : ifInfoHashExists (written sampleWrites) [1] = .ok true ∧
    batchInfoHashExist (written sampleWrites) [[1],[2],[3]] = .ok [true,false,false] := by
  obtain ⟨hone,hall⟩ := exists_iff_last_upsert sampleWrites sampleWrites_valid
  exact ⟨hone [1],hall [[1],[2],[3]]⟩

end DhtOcean.Documents
