import Mathlib.Data.List.Forall2
import DhtOcean.Foundation.Hex
import DhtOcean.Foundation.Outcome
import DhtOcean.Foundation.Transition
import DhtOcean.Tracker.Recover

/-! # Batches of new torrents

`handleNewTorrent` collects torrents until there are enough of them for one request.
The message that completes a batch is appended to a slice of its own, which shares
its array with the batch, and the batch is dropped only when the tracker was asked
for all of them. Nothing is checked when a torrent is stored: a hash is decoded when
its batch is complete.
-/
namespace DhtOcean.Tracker.Batch
open Foundation
open Recover (Torrent)
variable {R E : Type}

abbrev Hash := FrontSlice UInt8

structure TrackerUpdater (R : Type) where
  trackerLimit : ℕ
  batch : FrontSlice (Option (Torrent R))

def newTrackerUpdater (limit : ℕ) : TrackerUpdater R := ⟨limit,.make none limit⟩

/-- What is left open about the runtime: `json.Unmarshal`, and how long it makes arrays. -/
structure Runtime (R E : Type) where
  unmarshal : Bytes → Except E (Torrent R)
  spare : ℕ → ℕ

inductive HandleError (E : Type)
  | unmarshal (e : E)
  | decode (e : HexError)
  | scrape (e : E)
  deriving DecidableEq, Repr

def decodeHashes (spare : ℕ → ℕ) : List (Option (Torrent R)) → Outcome HexError (List Hash)
  | [] => .ok []
  | none :: _ => .panic .nilDereference
  | some torrent :: b => do
    let hash ← .ofExcept (decodeString spare torrent.infoHash)
    let infoHashes ← decodeHashes spare b
    return hash :: infoHashes

def scrapeBatch (rt : Runtime R E) (scrape : List Hash → Outcome E Unit) (b : List (Option (Torrent R))) :
    Outcome (HandleError E) (List Hash) := do
  let infoHashes ← (decodeHashes rt.spare b).mapError .decode
  (scrape infoHashes).mapError .scrape
  return infoHashes

/-- The updater behind the call, and how the call ended. A call that returns nil comes with what it
passed to `Scrape`, if it did. -/
def handleNewTorrent (rt : Runtime R E) (scrape : List Hash → Outcome E Unit) (u : TrackerUpdater R)
    (payload : Bytes) : TrackerUpdater R × Outcome (HandleError E) (Option (List Hash)) :=
  match rt.unmarshal payload with
  | .error e => (u,.error (.unmarshal e))
  | .ok t =>
    let (batch,b) := u.batch.append (some t)
    if u.batch.len + 1 < u.trackerLimit then ({ u with batch := b },.ok none)
    else
      match scrapeBatch rt scrape b.contents with
      | .ok infoHashes => ({ u with batch := .make none u.trackerLimit },.ok (some infoHashes))
      | failed => ({ u with batch := batch },some <$> failed)

structure Message (E : Type) where
  payload : Bytes
  scrape : List Hash → Outcome E Unit

/-- An updater, the successful calls of `Scrape`, and the torrents of the messages that are done. -/
structure Session (R : Type) where
  updater : TrackerUpdater R
  scraped : List (List Hash)
  accepted : List (Torrent R)

def newSession (limit : ℕ) : Session R := ⟨newTrackerUpdater limit,[],[]⟩

def handle (rt : Runtime R E) (s : Session R) (msg : Message E) :
    TrackerUpdater R × Outcome (HandleError E) (Option (List Hash)) :=
  handleNewTorrent rt msg.scrape s.updater msg.payload

/-- The router recovers from panics; behind a call that never returns there is no message. -/
def step (rt : Runtime R E) (s : Session R) (msg : Message E) : Option (Session R) :=
  match (handle rt s msg).2 with
  | .ok call => some ⟨(handle rt s msg).1,s.scraped ++ call.toList,
      s.accepted ++ (rt.unmarshal msg.payload).toOption.toList⟩
  | .hang => none
  | _ => some { s with updater := (handle rt s msg).1 }

def DecodesTo (ts : List (Torrent R)) (infoHashes : List Hash) : Prop :=
  ts.map (fun t => decodeHex t.infoHash) = infoHashes.map (fun hash => .ok hash.contents)

theorem decodeHashes_ok {spare : ℕ → ℕ} {ts : List (Torrent R)} {infoHashes : List Hash}
    (h : decodeHashes spare (ts.map some) = .ok infoHashes) : DecodesTo ts infoHashes := by
  induction ts generalizing infoHashes with
  | nil =>
    cases h
    rfl
  | cons t ts ih =>
    rw [List.map_cons,decodeHashes,Outcome.bind_eq_ok] at h
    obtain ⟨hash,hhash,h⟩ := h
    obtain ⟨hashes,hhashes,h⟩ := Outcome.bind_eq_ok.mp h
    cases h
    exact congrArg₂ List.cons (decodeString_eq_ok (Outcome.ofExcept_eq_ok.mp hhash)) (ih hhashes)

section Cases
variable {rt : Runtime R E} {scrape : List Hash → Outcome E Unit} {u : TrackerUpdater R} {payload : Bytes}

/-- A torrent is stored, or it completes a batch that is scraped, or the call fails. -/
theorem handleNewTorrent_cases (rt : Runtime R E) (scrape : List Hash → Outcome E Unit) (u : TrackerUpdater R)
    (payload : Bytes) :
    (∃ e, rt.unmarshal payload = .error e ∧ handleNewTorrent rt scrape u payload = (u,.error (.unmarshal e))) ∨
    (∃ t, rt.unmarshal payload = .ok t ∧ u.batch.len + 1 < u.trackerLimit ∧
      handleNewTorrent rt scrape u payload = ({ u with batch := (u.batch.append (some t)).2 },.ok none)) ∨
    (∃ t infoHashes, rt.unmarshal payload = .ok t ∧ ¬ u.batch.len + 1 < u.trackerLimit ∧
      scrapeBatch rt scrape (u.batch.append (some t)).2.contents = .ok infoHashes ∧
      handleNewTorrent rt scrape u payload = ({ u with batch := .make none u.trackerLimit },.ok (some infoHashes))) ∨
    (∃ t, rt.unmarshal payload = .ok t ∧ ¬ u.batch.len + 1 < u.trackerLimit ∧
      (∀ infoHashes, scrapeBatch rt scrape (u.batch.append (some t)).2.contents ≠ .ok infoHashes) ∧
      handleNewTorrent rt scrape u payload = ({ u with batch := (u.batch.append (some t)).1 },
        some <$> scrapeBatch rt scrape (u.batch.append (some t)).2.contents)) := by
  cases hp : rt.unmarshal payload with
  | error e => exact .inl ⟨e,rfl,by simp only [handleNewTorrent,hp]⟩
  | ok t =>
    by_cases hroom : u.batch.len + 1 < u.trackerLimit
    · exact .inr (.inl ⟨t,rfl,hroom,by simp only [handleNewTorrent,hp,if_pos hroom]⟩)
    · cases hs : scrapeBatch rt scrape (u.batch.append (some t)).2.contents with
      | ok infoHashes =>
        exact .inr (.inr (.inl ⟨t,infoHashes,rfl,hroom,hs,by simp only [handleNewTorrent,hp,if_neg hroom,hs]⟩))
      | _ =>
        refine .inr (.inr (.inr ⟨t,rfl,hroom,?_,?_⟩))
        · rw [hs]
          exact fun _ h => by cases h
        · simp only [handleNewTorrent,hp,if_neg hroom,hs]

theorem scrapeBatch_ok {b : List (Option (Torrent R))} {infoHashes : List Hash}
    (h : scrapeBatch rt scrape b = .ok infoHashes) :
    decodeHashes rt.spare b = .ok infoHashes ∧ scrape infoHashes = .ok () := by
  obtain ⟨hashes,hdecode,h⟩ := Outcome.bind_eq_ok.mp h
  obtain ⟨⟨⟩,hscrape,h⟩ := Outcome.bind_eq_ok.mp h
  cases h
  exact ⟨Outcome.mapError_eq_ok.mp hdecode,Outcome.mapError_eq_ok.mp hscrape⟩

theorem contents_of_failed (h : ∀ call, (handleNewTorrent rt scrape u payload).2 ≠ .ok call) :
    (handleNewTorrent rt scrape u payload).1.batch.contents = u.batch.contents := by
  rcases handleNewTorrent_cases rt scrape u payload with ⟨e,-,heq⟩ | ⟨t,-,-,heq⟩ | ⟨t,hs,-,-,-,heq⟩ | ⟨t,-,-,-,heq⟩
  · rw [heq]
  · exact absurd (congrArg Prod.snd heq) (h none)
  · exact absurd (congrArg Prod.snd heq) (h (some hs))
  · rw [heq]
    exact (u.batch.contents_append (some t)).1

end Cases

/-- A message is stored, completes a batch, or leaves everything but the array behind the batch as it is. -/
theorem step_cases {rt : Runtime R E} {s s' : Session R} {msg : Message E} (h : step rt s msg = some s') :
    (∃ t, rt.unmarshal msg.payload = .ok t ∧ s.updater.batch.len + 1 < s.updater.trackerLimit ∧
      s' = ⟨{ s.updater with batch := (s.updater.batch.append (some t)).2 },s.scraped,s.accepted ++ [t]⟩) ∨
    (∃ t infoHashes, rt.unmarshal msg.payload = .ok t ∧ ¬ s.updater.batch.len + 1 < s.updater.trackerLimit ∧
      scrapeBatch rt msg.scrape (s.updater.batch.append (some t)).2.contents = .ok infoHashes ∧
      s' = ⟨{ s.updater with batch := .make none s.updater.trackerLimit },s.scraped ++ [infoHashes],
        s.accepted ++ [t]⟩) ∨
    (∃ batch, (s.updater.batch.len + 1 < s.updater.trackerLimit → ∀ t, rt.unmarshal msg.payload ≠ .ok t) ∧
      batch.contents = s.updater.batch.contents ∧ s' = { s with updater := { s.updater with batch := batch } }) := by
  rcases handleNewTorrent_cases rt msg.scrape s.updater msg.payload with
    ⟨e,he,heq⟩ | ⟨t,ht,hroom,heq⟩ | ⟨t,infoHashes,ht,hfull,hscraped,heq⟩ | ⟨t,-,hfull,hne,heq⟩
  · simp only [step,handle,heq] at h
    cases h
    refine .inr (.inr ⟨_,?_,rfl,rfl⟩)
    intro _ t ht
    cases he.symm.trans ht
  · simp only [step,handle,heq,ht] at h
    cases h
    refine .inl ⟨t,ht,hroom,?_⟩
    simp [Except.toOption]
  · simp only [step,handle,heq,ht] at h
    cases h
    exact .inr (.inl ⟨t,infoHashes,ht,hfull,hscraped,rfl⟩)
  · simp only [step,handle,heq] at h
    refine .inr (.inr ⟨_,fun hroom => absurd hroom hfull,(s.updater.batch.contents_append (some t)).1,?_⟩)
    cases hs : scrapeBatch rt msg.scrape (s.updater.batch.append (some t)).2.contents with
    | ok infoHashes => exact absurd hs (hne infoHashes)
    | hang =>
      rw [hs] at h
      cases h
    | _ =>
      rw [hs] at h
      cases h
      rfl

structure Conserved (limit : ℕ) (s : Session R) : Prop where
  limit_eq : s.updater.trackerLimit = limit
  room : s.updater.batch.len + 1 ≤ limit
  ledger : ∃ batches stored, List.Forall₂ DecodesTo batches s.scraped ∧ s.updater.batch.contents = stored.map some ∧
    batches.flatten ++ stored = s.accepted
  whole : ∀ infoHashes ∈ s.scraped, infoHashes.length = limit

namespace Conserved
variable {limit : ℕ} {rt : Runtime R E} {s s' : Session R} {msg : Message E}

theorem new (hlimit : 1 ≤ limit) : Conserved limit (newSession limit : Session R) where
  limit_eq := rfl
  room := hlimit
  ledger := ⟨[],[],.nil,rfl,rfl⟩
  whole := by
    rintro _ ⟨⟩

theorem step (hs : Conserved limit s) (h : step rt s msg = some s') : Conserved limit s' := by
  obtain ⟨batches,stored,hbatches,hstored,hledger⟩ := hs.ledger
  have hlimit := hs.limit_eq
  have hroom := hs.room
  rcases step_cases h with ⟨t,-,hlt,rfl⟩ | ⟨t,infoHashes,-,hfull,hscraped,rfl⟩ | ⟨batch,-,hbatch,rfl⟩
  · obtain ⟨-,hlen⟩ := s.updater.batch.len_append (some t)
    obtain ⟨-,hcontents⟩ := s.updater.batch.contents_append (some t)
    refine ⟨hlimit,?_,⟨batches,stored ++ [t],hbatches,?_,?_⟩,hs.whole⟩
    · dsimp only
      omega
    · dsimp only
      rw [hcontents,hstored,List.map_append,List.map_singleton]
    · rw [← List.append_assoc,hledger]
  · obtain ⟨-,hcontents⟩ := s.updater.batch.contents_append (some t)
    obtain ⟨hdecoded,-⟩ := scrapeBatch_ok hscraped
    have hall : (s.updater.batch.append (some t)).2.contents = (stored ++ [t]).map some := by
      rw [hcontents,hstored,List.map_append,List.map_singleton]
    rw [hall] at hdecoded
    have hdecodes := decodeHashes_ok hdecoded
    have hcount : infoHashes.length = limit := by
      have hlen := congrArg List.length hdecodes
      have hn := s.updater.batch.length_contents
      rw [hstored,List.length_map] at hn
      simp only [List.length_map,List.length_append,List.length_singleton] at hlen
      omega
    refine ⟨hlimit,?_,⟨batches ++ [stored ++ [t]],[],?_,rfl,?_⟩,?_⟩
    · exact Nat.le_trans (Nat.succ_le_succ (Nat.zero_le _)) hroom
    · exact List.rel_append hbatches (.cons hdecodes .nil)
    · rw [List.flatten_concat,List.append_nil,← List.append_assoc,hledger]
    · intro hashes hmem
      rcases List.mem_append.mp hmem with hmem | hmem
      · exact hs.whole hashes hmem
      · rw [List.mem_singleton.mp hmem]
        exact hcount
  · have hlen : batch.len = s.updater.batch.len := by
      rw [← batch.length_contents,hbatch,s.updater.batch.length_contents]
    refine ⟨hlimit,?_,⟨batches,stored,hbatches,hbatch.trans hstored,hledger⟩,hs.whole⟩
    dsimp only
    omega

end Conserved

theorem scraped_step {rt : Runtime R E} {s s' : Session R} {msg : Message E} (h : step rt s msg = some s') :
    s'.scraped = s.scraped ∨ ∃ infoHashes, msg.scrape infoHashes = .ok () ∧ s'.scraped = s.scraped ++ [infoHashes] := by
  rcases step_cases h with ⟨t,-,-,rfl⟩ | ⟨t,infoHashes,-,-,hscraped,rfl⟩ | ⟨batch,-,-,rfl⟩
  · exact .inl rfl
  · exact .inr ⟨infoHashes,(scrapeBatch_ok hscraped).2,rfl⟩
  · exact .inl rfl

/-- Behind each list that was scraped there is a message whose `Scrape` has returned nil for it. -/
theorem scraped_run {rt : Runtime R E} {s s' : Session R} {msgs : List (Message E)} (h : run (step rt) s msgs = some s') :
    ∃ calls added, calls.Sublist msgs ∧ s'.scraped = s.scraped ++ added ∧
      List.Forall₂ (fun msg infoHashes => msg.scrape infoHashes = .ok ()) calls added := by
  induction msgs generalizing s with
  | nil =>
    cases h
    exact ⟨[],[],.slnil,(List.append_nil _).symm,.nil⟩
  | cons msg msgs ih =>
    obtain ⟨u,hu,hrest⟩ := Option.bind_eq_some_iff.mp h
    obtain ⟨calls,added,hsub,hadded,hcalls⟩ := ih hrest
    rcases scraped_step hu with hkept | ⟨infoHashes,hscrape,hnew⟩
    · exact ⟨calls,added,.cons _ hsub,hkept ▸ hadded,hcalls⟩
    · refine ⟨msg :: calls,infoHashes :: added,.cons_cons _ hsub,?_,.cons hscrape hcalls⟩
      rw [hadded,hnew,List.append_assoc,List.singleton_append]

/-- Torrents are neither lost nor scraped twice, whatever the payloads are and however `Scrape` ends. -/
theorem batching_conserves (rt : Runtime R E) (limit : ℕ) (hlimit : 1 ≤ limit) (msgs : List (Message E)) (s : Session R)
    (hs : run (step rt) (newSession limit) msgs = some s) :
    (∃ calls, calls.Sublist msgs ∧ List.Forall₂ (fun msg infoHashes => msg.scrape infoHashes = .ok ()) calls s.scraped) ∧
    (∃ batches stored, List.Forall₂ DecodesTo batches s.scraped ∧ s.updater.batch.contents = stored.map some ∧
      batches.flatten ++ stored = s.accepted) ∧
    (∀ infoHashes ∈ s.scraped, infoHashes.length = limit) ∧ s.updater.batch.len ≤ limit - 1 ∧
    (∀ msg, (∀ call, (handle rt s msg).2 ≠ .ok call) →
      (handle rt s msg).1.batch.contents = s.updater.batch.contents) := by
  have hc : Conserved limit s := (Reach.of_run msgs hs).invariant (.new hlimit) (fun hi _ h => hi.step h)
  obtain ⟨calls,added,hsub,hadded,hcalls⟩ := scraped_run hs
  cases hadded
  exact ⟨⟨calls,hsub,hcalls⟩,hc.ledger,hc.whole,Nat.le_sub_one_of_lt hc.room,fun _ => contents_of_failed⟩

section Sample

def samplePayload (infoHash : Bytes) : Bytes := ascii "\x7b\"info_hash\":\"" ++ infoHash ++ ascii "\"\x7d"

/-- What such objects, and the empty one, unmarshal to; arrays are as long as they must be. -/
def sampleRuntime : Runtime Unit Unit where
  unmarshal payload :=
    if payload.head? = some '\x7b'.toUInt8 then .ok ⟨(payload.drop 14).take (payload.length - 16),none,()⟩ else .error ()
  spare _ := 0

def sampleMessages : List (Message Unit) :=
  [⟨samplePayload (ascii "ab"),fun _ => .ok ()⟩,⟨ascii "x",fun _ => .ok ()⟩,
    ⟨samplePayload (ascii "cd"),fun _ => .error ()⟩,⟨samplePayload (ascii "cd"),fun _ => .ok ()⟩,
    ⟨samplePayload (ascii "ef"),fun _ => .ok ()⟩]

/-- A payload that is none and a failed request in between change nothing. -/
theorem sampleMessages_conserved : ∃ s, run (step sampleRuntime) (newSession 2) sampleMessages = some s ∧
    s.accepted.map Torrent.infoHash = [ascii "ab",ascii "cd",ascii "ef"] ∧ s.scraped.length = 1 ∧
    (∃ calls, calls.Sublist sampleMessages ∧
      List.Forall₂ (fun msg infoHashes => msg.scrape infoHashes = .ok ()) calls s.scraped) ∧
    (∀ infoHashes ∈ s.scraped, infoHashes.length = 2) ∧ s.updater.batch.len ≤ 2 - 1 := by
  obtain ⟨hcalls,-,hwhole,hlen,-⟩ := batching_conserves sampleRuntime 2 (by decide) sampleMessages _ rfl
  exact ⟨_,rfl,rfl,rfl,hcalls,hwhole,hlen⟩

end Sample

section Poison

/-- What can go wrong in `Scrape` besides its argument: connecting and waiting for the connection, and
then queueing and writing the request. A call of which nothing is given never returns. -/
structure Transport (E : Type) where
  connect : Option (Except E Unit)
  send : List Bytes → Option (Except E Unit)

def ofReturn : Option (Except E Unit) → Outcome E Unit
  | none => .hang
  | some result => .ofExcept result

/-- `infoHash[:20]` for each of them. -/
def requestHashes : List Hash → Outcome E (List Bytes)
  | [] => .ok []
  | infoHash :: infoHashes =>
    match infoHash.upTo 20 with
    | none => .panic .sliceBounds
    | some text => do
      let texts ← requestHashes infoHashes
      return text :: texts

/-- `UDPTracker.Scrape` -/
def Transport.scrape (tr : Transport E) (infoHashes : List Hash) : Outcome E Unit := do
  ofReturn tr.connect
  let texts ← requestHashes infoHashes
  ofReturn (tr.send texts)

structure Delivery (E : Type) where
  payload : Bytes
  transport : Transport E

def Delivery.message (d : Delivery E) : Message E := ⟨d.payload,d.transport.scrape⟩

def deliver (rt : Runtime R E) (s : Session R) (d : Delivery E) : Option (Session R) := step rt s d.message

def Whole (t : Torrent R) : Prop := ∃ b, decodeHex t.infoHash = .ok b ∧ 20 ≤ b.length

def Wholesome (s : Session R) : Prop := ∀ t, some t ∈ s.updater.batch.contents → Whole t

def StoresWhole (rt : Runtime R E) (s : Session R) (d : Delivery E) : Prop :=
  s.updater.batch.len + 1 < s.updater.trackerLimit → ∀ t, rt.unmarshal d.payload = .ok t → Whole t

def IsHash (text : Bytes) : Prop := text.length = 40 ∧ ∀ c ∈ text, (hexValue c).isSome

variable {rt : Runtime R E} {s s' : Session R} {d : Delivery E}

theorem whole_of_isHash {t : Torrent R} (h : IsHash t.infoHash) : Whole t := by
  obtain ⟨b,hb,hlen⟩ := decodeHex_digits (n := 20) h.1 h.2
  exact ⟨b,hb,Nat.le_of_eq hlen.symm⟩

theorem Wholesome.deliver (hs : Wholesome s) (hg : StoresWhole rt s d) (h : deliver rt s d = some s') :
    Wholesome s' := by
  rcases step_cases h with ⟨t,ht,hroom,rfl⟩ | ⟨t,infoHashes,-,-,-,rfl⟩ | ⟨batch,-,hbatch,rfl⟩
  · intro u hu
    rw [(s.updater.batch.contents_append (some t)).2] at hu
    rcases List.mem_append.mp hu with hu | hu
    · exact hs u hu
    · cases List.mem_singleton.mp hu
      exact hg hroom t ht
  · intro u hu
    cases hu
  · intro u hu
    exact hs u (hbatch ▸ hu)

/-- A message that is stored is not looked at before the batch is complete. -/
theorem storesWhole_of_wholesome (h : deliver rt s d = some s') (hs : Wholesome s') : StoresWhole rt s d := by
  intro hroom t ht
  rcases step_cases h with ⟨u,hu,-,rfl⟩ | ⟨u,infoHashes,-,hfull,-⟩ | ⟨batch,hbad,-⟩
  · cases ht.symm.trans hu
    apply hs t
    rw [(s.updater.batch.contents_append (some t)).2]
    exact List.mem_append_right _ List.mem_cons_self
  · exact absurd hroom hfull
  · exact absurd ht (hbad hroom t)

theorem decodeHashes_whole {ts : List (Torrent R)} (spare : ℕ → ℕ) (h : ∀ t ∈ ts, Whole t) :
    ∃ infoHashes, decodeHashes spare (ts.map some) = .ok infoHashes ∧ ∀ infoHash ∈ infoHashes, 20 ≤ infoHash.len := by
  induction ts with
  | nil => exact ⟨[],rfl,by simp⟩
  | cons t ts ih =>
    obtain ⟨b,hb,hlen⟩ := h t List.mem_cons_self
    obtain ⟨infoHashes,hdecoded,hall⟩ := ih (fun u hu => h u (List.mem_cons_of_mem _ hu))
    obtain ⟨hash,hhash⟩ : ∃ hash, decodeString spare t.infoHash = .ok hash := by
      rw [decodeString,hb]
      exact ⟨_,rfl⟩
    have hcontents := decodeString_eq_ok hhash
    rw [hb,Except.ok.injEq] at hcontents
    refine ⟨hash :: infoHashes,?_,?_⟩
    · rw [List.map_cons,decodeHashes,hhash,hdecoded]
      rfl
    · intro infoHash hmem
      rcases List.mem_cons.mp hmem with rfl | hmem
      · rwa [← infoHash.length_contents,← hcontents]
      · exact hall infoHash hmem

theorem requestHashes_ok {infoHashes : List Hash} (h : ∀ infoHash ∈ infoHashes, 20 ≤ infoHash.len) :
    (requestHashes infoHashes : Outcome E _) = .ok (infoHashes.map (·.contents.take 20)) := by
  induction infoHashes with
  | nil => rfl
  | cons infoHash infoHashes ih =>
    rw [requestHashes,FrontSlice.upTo_of_le (h infoHash List.mem_cons_self)]
    dsimp only
    rw [ih (fun x hx => h x (List.mem_cons_of_mem _ hx))]
    rfl

def Transport.run (tr : Transport E) (texts : List Bytes) : Outcome E Unit := do
  ofReturn tr.connect
  ofReturn (tr.send texts)

theorem handle_complete {limit : ℕ} (hc : Conserved limit s) (hs : Wholesome s) {t : Torrent R}
    (ht : rt.unmarshal d.payload = .ok t) (hwhole : Whole t) (hfull : ¬ s.updater.batch.len + 1 < limit) :
    ∃ infoHashes : List Hash, (∀ infoHash ∈ infoHashes, infoHash.upTo 20 = some (infoHash.contents.take 20)) ∧
      (handle rt s d.message).2 = (do
        (d.transport.run (infoHashes.map (·.contents.take 20))).mapError .scrape
        return some infoHashes) := by
  obtain ⟨-,stored,-,hstored,-⟩ := hc.ledger
  have hall : (s.updater.batch.append (some t)).2.contents = (stored ++ [t]).map some := by
    rw [(s.updater.batch.contents_append (some t)).2,hstored,List.map_append,List.map_singleton]
  have hts : ∀ u ∈ stored ++ [t], Whole u := by
    intro u hu
    rcases List.mem_append.mp hu with hu | hu
    · exact hs u (hstored ▸ List.mem_map_of_mem hu)
    · exact List.mem_singleton.mp hu ▸ hwhole
  obtain ⟨infoHashes,hdecoded,hlong⟩ := decodeHashes_whole rt.spare hts
  have hscrape : d.transport.scrape infoHashes = d.transport.run (infoHashes.map (·.contents.take 20)) := by
    rw [Transport.scrape,requestHashes_ok hlong]
    rfl
  have hbatch : scrapeBatch rt d.transport.scrape (s.updater.batch.append (some t)).2.contents = (do
      (d.transport.run (infoHashes.map (·.contents.take 20))).mapError .scrape
      return infoHashes) := by
    rw [scrapeBatch,hall,hdecoded,Outcome.mapError_ok,Outcome.ok_bind,hscrape]
  refine ⟨infoHashes,fun infoHash hmem => FrontSlice.upTo_of_le (hlong infoHash hmem),?_⟩
  rw [← hc.limit_eq] at hfull
  simp only [handle,Delivery.message,handleNewTorrent,ht,if_neg hfull,hbatch]
  cases d.transport.run (infoHashes.map (·.contents.take 20)) <;> rfl

/-- The batch is wholesome throughout exactly the runs that store nothing but whole torrents; and while it
is, a message with a hash that completes it fails only with the transport. -/
theorem wholesome_throughout_iff (rt : Runtime R E) (limit : ℕ) (hlimit : 1 ≤ limit) (ds : List (Delivery E))
    (s : Session R) (hrun : run (deliver rt) (newSession limit) ds = some s) :
    (Throughout (deliver rt) Wholesome (newSession limit) ds ↔
      Guarded (deliver rt) (StoresWhole rt) (newSession limit) ds) ∧
    (Wholesome s → ∀ (d : Delivery E) t, rt.unmarshal d.payload = .ok t → IsHash t.infoHash → ¬ s.updater.batch.len + 1 < limit →
      ∃ infoHashes : List Hash, (∀ infoHash ∈ infoHashes, infoHash.upTo 20 = some (infoHash.contents.take 20)) ∧
        (handle rt s d.message).2 = (do
          (d.transport.run (infoHashes.map (·.contents.take 20))).mapError .scrape
          return some infoHashes)) := by
  constructor
  · refine throughout_iff_guarded (fun hs => hs) (fun hs _ hg h => hs.deliver hg h)
      (fun _ _ h hs => storesWhole_of_wholesome h hs) ?_ hrun (guarded_free _ _ _)
    intro t ht
    cases ht
  · intro hs d t ht hhash hfull
    have hc : Conserved limit s := (Reach.of_run ds hrun).invariant (.new hlimit) (fun hi _ h => hi.step h)
    exact handle_complete hc hs ht (whole_of_isHash hhash) hfull

theorem decodeHashes_mem {spare : ℕ → ℕ} {b : List (Option (Torrent R))} {infoHashes : List Hash}
    (h : decodeHashes spare b = .ok infoHashes) {t : Torrent R} (ht : some t ∈ b) :
    ∃ text, decodeHex t.infoHash = .ok text := by
  induction b generalizing infoHashes with
  | nil => cases ht
  | cons entry b ih =>
    cases entry with
    | none => cases h
    | some u =>
      obtain ⟨hash,hhash,h⟩ := Outcome.bind_eq_ok.mp h
      obtain ⟨hashes,hhashes,-⟩ := Outcome.bind_eq_ok.mp h
      rcases List.mem_cons.mp ht with heq | ht
      · cases heq
        exact ⟨_,decodeString_eq_ok (Outcome.ofExcept_eq_ok.mp hhash)⟩
      · exact ih hhashes ht

/-- A full batch with a hash that does not decode stays as it is for ever, and nothing is accepted. -/
theorem poisoned_forever {t : Torrent R} {e : HexError} (hfull : ¬ s.updater.batch.len + 1 < s.updater.trackerLimit)
    (ht : some t ∈ s.updater.batch.contents) (he : decodeHex t.infoHash = .error e)
    (h : Reach (step rt) (Free _ _) s s') :
    s'.updater.batch.contents = s.updater.batch.contents ∧ s'.updater.trackerLimit = s.updater.trackerLimit ∧
      s'.accepted = s.accepted := by
  refine h.invariant (P := fun s' => s'.updater.batch.contents = s.updater.batch.contents ∧
    s'.updater.trackerLimit = s.updater.trackerLimit ∧ s'.accepted = s.accepted) ⟨rfl,rfl,rfl⟩ ?_
  rintro u msg v ⟨hcontents,hlimit,haccepted⟩ - hv
  have hlen : u.updater.batch.len = s.updater.batch.len := by
    rw [← FrontSlice.length_contents,hcontents,FrontSlice.length_contents]
  rcases step_cases hv with ⟨x,-,hroom,-⟩ | ⟨x,infoHashes,-,-,hscraped,-⟩ | ⟨batch,-,hbatch,rfl⟩
  · omega
  · have hmem : some t ∈ (u.updater.batch.append (some x)).2.contents := by
      rw [(u.updater.batch.contents_append (some x)).2,hcontents]
      exact List.mem_append_left _ ht
    obtain ⟨text,htext⟩ := decodeHashes_mem (scrapeBatch_ok hscraped).1 hmem
    cases he.symm.trans htext
  · exact ⟨hbatch.trans hcontents,hlimit,haccepted⟩

def sampleDelivery (infoHash : Bytes) : Delivery Unit := ⟨samplePayload infoHash,⟨some (.ok ()),fun _ => some (.ok ())⟩⟩

def sampleHash : Bytes := ascii "0123456789abcdef0123456789ABCDEF01234567"

theorem sampleHash_isHash : IsHash sampleHash := ⟨rfl,List.all_eq_true.mp rfl⟩

theorem sampleHash_wholesome : ∃ s, run (deliver sampleRuntime) (newSession 2) [sampleDelivery sampleHash] = some s ∧
    Throughout (deliver sampleRuntime) Wholesome (newSession 2) [sampleDelivery sampleHash] ∧
    ∃ call, (handle sampleRuntime s (sampleDelivery sampleHash).message).2 = .ok call := by
  obtain ⟨hiff,hcomplete⟩ := wholesome_throughout_iff sampleRuntime 2 (by decide) [sampleDelivery sampleHash] _ rfl
  have hguard : Guarded (deliver sampleRuntime) (StoresWhole sampleRuntime) (newSession 2) [sampleDelivery sampleHash] := by
    refine ⟨?_,fun _ _ => trivial⟩
    rintro - t ⟨⟩
    exact whole_of_isHash sampleHash_isHash
  have hthrough := hiff.mpr hguard
  obtain ⟨infoHashes,-,hresult⟩ := hcomplete (hthrough.2 _ rfl) (sampleDelivery sampleHash) ⟨sampleHash,none,()⟩ rfl
    sampleHash_isHash (by decide)
  exact ⟨_,rfl,hthrough,some infoHashes,hresult⟩

/-- An object with a hash of other letters, or with none at all, is accepted; then a message with a valid
hash fails over a transport that works, in the decoder or with a panic. -/
theorem bad_hash_poisons :
    (∃ s, run (deliver sampleRuntime) (newSession 2) [sampleDelivery (ascii "zz")] = some s ∧ ¬ Wholesome s ∧
      (handle sampleRuntime s (sampleDelivery sampleHash).message).2 = .error (.decode (.invalidByte 'z'.toUInt8))) ∧
    (∃ s, run (deliver sampleRuntime) (newSession 2) [⟨ascii "\x7b\x7d",⟨some (.ok ()),fun _ => some (.ok ())⟩⟩] = some s ∧
      ¬ Wholesome s ∧ (handle sampleRuntime s (sampleDelivery sampleHash).message).2 = .panic .sliceBounds) := by
  refine ⟨⟨_,rfl,?_,?_⟩,_,rfl,?_,?_⟩
  · intro h
    obtain ⟨b,hb,-⟩ := h ⟨ascii "zz",none,()⟩ List.mem_cons_self
    cases hb
  · rfl
  · intro h
    obtain ⟨b,hb,hlen⟩ := h ⟨[],none,()⟩ List.mem_cons_self
    cases hb
    cases hlen
  · rfl

end Poison

end DhtOcean.Tracker.Batch
