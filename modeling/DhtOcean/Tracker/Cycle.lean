import DhtOcean.Foundation.Find
import DhtOcean.Foundation.Transition
import DhtOcean.Store.TrackerState
import DhtOcean.Tracker.Recover
import Mathlib.Data.Finset.Card

/-! # The cycle of the refresh loop

`refreshTracker` goes by the date of the last attempt, which several services write:
the loop itself, `Recover` and the list that the ocean service hands out set it, a
torrent that is ingested loses it, and a snapshot brings back the one that it was
taken with. Whoever has a date gets its turn, however the services interleave, and
whoever has none is never asked for.
-/
namespace DhtOcean.Tracker.Cycle
open Foundation Recover
open Store (sixHours NotBefore)
variable {R : Type}

def hashes (ts : List (Torrent R)) : List Bytes := ts.map Torrent.infoHash

section Collection

/-- An upsert of all fields. -/
def upsert (c : Collection R) (t : Torrent R) : Collection R where
  docs := t :: c.docs.filter (·.infoHash != t.infoHash)
  distinct := by
    rw [List.map_cons,List.nodup_cons]
    refine ⟨?_,c.distinct.sublist (List.filter_sublist.map _)⟩
    rw [List.mem_map]
    rintro ⟨u,hu,hne⟩
    have hdiffers := (List.mem_filter.mp hu).2
    rw [hne] at hdiffers
    simp at hdiffers

/-- An update of the other fields, under the key. -/
def Torrent.setRest (id : Bytes) (rest : R) (t : Torrent R) : Torrent R :=
  if t.infoHash = id then { t with rest := rest } else t

theorem infoHash_setRest (id : Bytes) (rest : R) (t : Torrent R) : (Torrent.setRest id rest t).infoHash = t.infoHash := by
  unfold Torrent.setRest
  split <;> rfl

theorem tried_setRest (id : Bytes) (rest : R) (t : Torrent R) :
    (Torrent.setRest id rest t).trackerLastTriedAt = t.trackerLastTriedAt := by
  unfold Torrent.setRest
  split <;> rfl

def setRest (c : Collection R) (id : Bytes) (rest : R) : Collection R where
  docs := c.docs.map (Torrent.setRest id rest)
  distinct := by
    rw [List.map_map,show Torrent.infoHash ∘ Torrent.setRest id rest = Torrent.infoHash (R := R) from
      funext (infoHash_setRest id rest)]
    exact c.distinct

theorem mem_upsert {c : Collection R} {t u : Torrent R} (h : u ∈ (upsert c t).docs) : u = t ∨ u ∈ c.docs := by
  rcases List.mem_cons.mp h with rfl | h
  · exact .inl rfl
  · exact .inr (List.mem_filter.mp h).1

theorem mem_mark {c : Collection R} {date : ℕ} {ids : List Bytes} {u : Torrent R} (h : u ∈ (c.mark date ids).docs) :
    (u.infoHash ∈ ids ∧ u.trackerLastTriedAt = some date) ∨ (u.infoHash ∉ ids ∧ u ∈ c.docs) := by
  obtain ⟨v,hv,rfl⟩ := List.mem_map.mp h
  rw [Torrent.infoHash_mark]
  by_cases hid : v.infoHash ∈ ids
  · exact .inl ⟨hid,by simp [Torrent.mark,hid]⟩
  · exact .inr ⟨hid,by simpa [Torrent.mark,hid] using hv⟩

theorem mem_setRest {c : Collection R} {id : Bytes} {rest : R} {u : Torrent R} (h : u ∈ (setRest c id rest).docs) :
    ∃ v ∈ c.docs, v.infoHash = u.infoHash ∧ v.trackerLastTriedAt = u.trackerLastTriedAt := by
  obtain ⟨v,hv,rfl⟩ := List.mem_map.mp h
  exact ⟨v,hv,(infoHash_setRest id rest v).symm,(tried_setRest id rest v).symm⟩

end Collection

/-- The services share one clock. -/
structure System (R : Type) where
  clock : ℕ
  col : Collection R
  /-- What `getRecords` has returned to `refreshTracker`. -/
  records : Option (List (Torrent R))
  /-- The document that `handleResult` read back and has yet to publish. -/
  unpublished : Option (Torrent R)
  /-- The snapshots on their way to `consumeNewTorrent`. -/
  queue : List (Torrent R)
  /-- The hashes that `refreshTracker` has asked the tracker for, with the dates that it set for them. -/
  asked : List (ℕ × Bytes)
  /-- The calls of `refreshTracker` that came to ask the tracker. -/
  rounds : ℕ

inductive Event (R : Type)
  | tick (d : ℕ)
  /-- The query of `refreshTracker`, unless it fails. -/
  | getRecords (result : Option (List (Torrent R)))
  /-- The update of `refreshTracker`, or what it has marked when it failed. -/
  | updateMany (failed : Option (List Bytes))
  /-- An update by `Recover`, or those of one call of `ListTorrentInfoForTracker`. -/
  | date (now : ℕ) (ids : List Bytes)
  /-- `handleTorrent` or `CommitTorrent`. -/
  | ingest (id : Bytes) (rest : R)
  /-- `UpdateTracker`, or the flag of the indexer. -/
  | setFields (id : Bytes) (rest : R)
  | handleResult (id : Bytes) (rest : R)
  | publish (ok : Bool)
  | consumeNewTorrent

/-- One step of one of the services. A call of `refreshTracker` is split behind its query; that it asks the
tracker behind its update is no step of its own, since this reads nothing that others write. -/
def step (s : System R) : Event R → Option (System R)
  | .tick d => some { s with clock := s.clock + d }
  | .getRecords result => if s.records.isNone then some { s with records := result } else none
  | .updateMany failed =>
    match s.records, failed with
    | some records, none =>
      let ids := hashes records
      some { s with
        col := s.col.mark s.clock ids
        records := none
        asked := s.asked ++ ids.map (s.clock,·)
        rounds := s.rounds + 1 }
    | some records, some marked =>
      if marked.all (hashes records).contains then some { s with col := s.col.mark s.clock marked, records := none }
      else none
    | none, _ => none
  | .date now ids => if now ≤ s.clock then some { s with col := s.col.mark now ids } else none
  | .ingest id rest => some { s with col := upsert s.col ⟨id,none,rest⟩ }
  | .setFields id rest => some { s with col := setRest s.col id rest }
  | .handleResult id rest =>
    if s.unpublished.isNone then
      let col := setRest s.col id rest
      some { s with col := col, unpublished := col.docs.find? (·.infoHash == id) }
    else none
  | .publish ok =>
    match s.unpublished with
    | some v => some { s with unpublished := none, queue := if ok then s.queue ++ [v] else s.queue }
    | none => none
  | .consumeNewTorrent =>
    match s.queue with
    | v :: queue => some { s with col := upsert s.col v, queue := queue }
    | [] => none

/-- The filter of `getRecords`; a missing date is not below any other. -/
def due (clock : ℕ) (t : Torrent R) : Bool := t.trackerLastTriedAt.any (· + sixHours ≤ clock)

/-- The order of `getRecords`. -/
def Earlier (a b : Torrent R) : Prop := NotBefore a.trackerLastTriedAt b.trackerLastTriedAt

/-- What the query finds is the database's answer to it. -/
def Answers (limit : ℕ) (s : System R) : Event R → Prop
  | .getRecords (some ts) => Found Earlier (due s.clock) limit s.col.docs ts
  | _ => True

theorem due_iff {clock : ℕ} {t : Torrent R} :
    due clock t = true ↔ ∃ d, t.trackerLastTriedAt = some d ∧ d + sixHours ≤ clock := by
  rw [due,Option.any_eq_true]
  constructor
  · rintro ⟨d,hd,hage⟩
    exact ⟨d,hd,of_decide_eq_true hage⟩
  · rintro ⟨d,hd,hage⟩
    exact ⟨d,hd,decide_eq_true hage⟩

section Step
variable {s t : System R} {e : Event R}

/-- What a step does, one case for each way that it goes. -/
inductive Steps : System R → Event R → System R → Prop
  | tick (s : System R) (d : ℕ) : Steps s (.tick d) { s with clock := s.clock + d }
  | getRecords (s : System R) (result : Option (List (Torrent R))) (hidle : s.records = none) :
      Steps s (.getRecords result) { s with records := result }
  | refreshed (s : System R) (ts : List (Torrent R)) (hr : s.records = some ts) :
      Steps s (.updateMany none) { s with
        col := s.col.mark s.clock (hashes ts)
        records := none
        asked := s.asked ++ (hashes ts).map (s.clock,·)
        rounds := s.rounds + 1 }
  | failed (s : System R) (ts : List (Torrent R)) (marked : List Bytes) (hr : s.records = some ts)
      (hsub : ∀ id ∈ marked, id ∈ hashes ts) :
      Steps s (.updateMany (some marked)) { s with col := s.col.mark s.clock marked, records := none }
  | date (s : System R) (now : ℕ) (ids : List Bytes) (hnow : now ≤ s.clock) :
      Steps s (.date now ids) { s with col := s.col.mark now ids }
  | ingest (s : System R) (id : Bytes) (rest : R) : Steps s (.ingest id rest) { s with col := upsert s.col ⟨id,none,rest⟩ }
  | setFields (s : System R) (id : Bytes) (rest : R) :
      Steps s (.setFields id rest) { s with col := setRest s.col id rest }
  | handleResult (s : System R) (id : Bytes) (rest : R) :
      Steps s (.handleResult id rest) { s with
        col := setRest s.col id rest
        unpublished := (setRest s.col id rest).docs.find? (·.infoHash == id) }
  | publish (s : System R) (v : Torrent R) (ok : Bool) (hv : s.unpublished = some v) :
      Steps s (.publish ok) { s with unpublished := none, queue := if ok then s.queue ++ [v] else s.queue }
  | consumeNewTorrent (s : System R) (v : Torrent R) (queue : List (Torrent R)) (hq : s.queue = v :: queue) :
      Steps s .consumeNewTorrent { s with col := upsert s.col v, queue := queue }

theorem steps_of_step (h : step s e = some t) : Steps s e t := by
  cases e with
  | tick d =>
    cases h
    exact .tick s d
  | getRecords result =>
    simp only [step,Option.ite_none_right_eq_some,Option.some.injEq,Option.isNone_iff_eq_none] at h
    obtain ⟨hidle,rfl⟩ := h
    exact .getRecords s result hidle
  | updateMany failed =>
    cases hr : s.records with
    | none => simp [step,hr] at h
    | some ts =>
      cases failed with
      | none =>
        simp only [step,hr,Option.some.injEq] at h
        obtain rfl := h
        exact .refreshed s ts hr
      | some marked =>
        simp only [step,hr,Option.ite_none_right_eq_some,Option.some.injEq,List.all_eq_true,List.contains_iff_mem] at h
        obtain ⟨hsub,rfl⟩ := h
        exact .failed s ts marked hr hsub
  | date now ids =>
    simp only [step,Option.ite_none_right_eq_some,Option.some.injEq] at h
    obtain ⟨hnow,rfl⟩ := h
    exact .date s now ids hnow
  | ingest id rest =>
    cases h
    exact .ingest s id rest
  | setFields id rest =>
    cases h
    exact .setFields s id rest
  | handleResult id rest =>
    simp only [step,Option.ite_none_right_eq_some,Option.some.injEq] at h
    obtain ⟨-,rfl⟩ := h
    exact .handleResult s id rest
  | publish ok =>
    cases hv : s.unpublished with
    | none => simp [step,hv] at h
    | some v =>
      simp only [step,hv,Option.some.injEq] at h
      obtain rfl := h
      exact .publish s v ok hv
  | consumeNewTorrent =>
    cases hq : s.queue with
    | nil => simp [step,hq] at h
    | cons v queue =>
      simp only [step,hq,Option.some.injEq] at h
      obtain rfl := h
      exact .consumeNewTorrent s v queue hq

theorem Steps.clock_le (h : Steps s e t) : s.clock ≤ t.clock := by
  cases h with
  | tick d => exact Nat.le_add_right _ _
  | _ => exact Nat.le_refl _

/-- Where a document behind a step has its date from. -/
theorem Steps.doc_cases (h : Steps s e t) {u : Torrent R} (hu : u ∈ t.col.docs) :
    (∃ v ∈ s.col.docs, v.infoHash = u.infoHash ∧ v.trackerLastTriedAt = u.trackerLastTriedAt) ∨
    u.trackerLastTriedAt = none ∨
    (∃ ts failed, e = .updateMany failed ∧ s.records = some ts ∧ u.infoHash ∈ hashes ts ∧
      u.trackerLastTriedAt = some s.clock) ∨
    (∃ now ids, e = .date now ids ∧ now ≤ s.clock ∧ u.infoHash ∈ ids ∧ u.trackerLastTriedAt = some now) ∨
    (∃ queue, e = .consumeNewTorrent ∧ s.queue = u :: queue) := by
  have hkept : u ∈ s.col.docs →
      ∃ v ∈ s.col.docs, v.infoHash = u.infoHash ∧ v.trackerLastTriedAt = u.trackerLastTriedAt :=
    fun hmem => ⟨u,hmem,rfl,rfl⟩
  cases h with
  | tick d => exact .inl (hkept hu)
  | getRecords result hidle => exact .inl (hkept hu)
  | refreshed ts hr =>
    rcases mem_mark hu with ⟨hid,hdate⟩ | ⟨-,hmem⟩
    · exact .inr (.inr (.inl ⟨ts,none,rfl,hr,hid,hdate⟩))
    · exact .inl (hkept hmem)
  | failed ts marked hr hsub =>
    rcases mem_mark hu with ⟨hid,hdate⟩ | ⟨-,hmem⟩
    · exact .inr (.inr (.inl ⟨ts,some marked,rfl,hr,hsub _ hid,hdate⟩))
    · exact .inl (hkept hmem)
  | date now ids hnow =>
    rcases mem_mark hu with ⟨hid,hdate⟩ | ⟨-,hmem⟩
    · exact .inr (.inr (.inr (.inl ⟨now,ids,rfl,hnow,hid,hdate⟩)))
    · exact .inl (hkept hmem)
  | ingest id rest =>
    rcases mem_upsert hu with rfl | hmem
    · exact .inr (.inl rfl)
    · exact .inl (hkept hmem)
  | setFields id rest => exact .inl (mem_setRest hu)
  | handleResult id rest => exact .inl (mem_setRest hu)
  | publish v ok hv => exact .inl (hkept hu)
  | consumeNewTorrent v queue hq =>
    rcases mem_upsert hu with rfl | hmem
    · exact .inr (.inr (.inr (.inr ⟨queue,rfl,hq⟩)))
    · exact .inl (hkept hmem)

def inFlight (s : System R) : List (Torrent R) := s.queue ++ s.unpublished.toList

/-- A snapshot in flight behind a step was in flight before it, or it has just been read. -/
theorem Steps.inFlight_cases (h : Steps s e t) {v : Torrent R} (hv : v ∈ inFlight t) :
    v ∈ inFlight s ∨ v ∈ t.col.docs := by
  cases h with
  | handleResult id rest =>
    rcases List.mem_append.mp hv with hv | hv
    · exact .inl (List.mem_append_left _ hv)
    · exact .inr (List.mem_of_find?_eq_some (Option.mem_toList.mp hv))
  | publish w ok hw =>
    refine .inl ?_
    rcases List.mem_append.mp hv with hv | hv
    · cases ok with
      | true =>
        rw [inFlight,hw]
        exact hv
      | false => exact List.mem_append_left _ hv
    · cases hv
  | consumeNewTorrent w queue hq =>
    refine .inl ?_
    rw [inFlight,hq]
    exact List.mem_cons_of_mem _ hv
  | _ => exact .inl hv

/-- What the loop has selected and asked for changes with its own steps only. -/
theorem Steps.fetch_cases (h : Steps s e t) :
    (∃ result, e = .getRecords result ∧ s.records = none ∧ t = { s with records := result }) ∨
    (∃ ts, e = .updateMany none ∧ s.records = some ts ∧ t.records = none ∧ t.rounds = s.rounds + 1 ∧
      t.clock = s.clock ∧ t.col = s.col.mark s.clock (hashes ts) ∧ t.asked = s.asked ++ (hashes ts).map (s.clock,·)) ∨
    (t.records = none ∧ t.rounds = s.rounds ∧ t.asked = s.asked) ∨
    (t.records = s.records ∧ t.rounds = s.rounds ∧ t.asked = s.asked) := by
  cases h with
  | getRecords result hidle => exact .inl ⟨result,rfl,hidle,rfl⟩
  | refreshed ts hr => exact .inr (.inl ⟨ts,rfl,hr,rfl,rfl,rfl,rfl,rfl⟩)
  | failed ts marked hr hsub => exact .inr (.inr (.inl ⟨rfl,rfl,rfl⟩))
  | _ => exact .inr (.inr (.inr ⟨rfl,rfl,rfl⟩))

end Step

section Undated

/-- Nobody but the loop itself sets a date for the torrent. -/
def LeftAlone (limit : ℕ) (id : Bytes) (s : System R) : Event R → Prop
  | .date _ ids => id ∉ ids
  | e => Answers limit s e

/-- The torrent has no date, in the collection or in flight, and has not been asked for. -/
structure Undated (id : Bytes) (s : System R) : Prop where
  docs : ∀ t ∈ s.col.docs, t.infoHash = id → t.trackerLastTriedAt = none
  inFlight : ∀ v ∈ inFlight s, v.infoHash = id → v.trackerLastTriedAt = none
  records : ∀ ts, s.records = some ts → id ∉ hashes ts
  asked : ∀ a ∈ s.asked, a.2 ≠ id

variable {limit : ℕ} {id : Bytes} {s t : System R} {e : Event R}

theorem Undated.docs_next (hs : Undated id s) (hg : LeftAlone limit id s e) (h : Steps s e t) :
    ∀ u ∈ t.col.docs, u.infoHash = id → u.trackerLastTriedAt = none := by
  rintro u hu rfl
  rcases h.doc_cases hu with ⟨v,hv,hid,hdate⟩ | hnone | ⟨ts,failed,-,hr,hid,-⟩ | ⟨now,ids,rfl,-,hid,-⟩ | ⟨queue,-,hq⟩
  · rw [← hdate]
    exact hs.docs v hv hid
  · exact hnone
  · exact absurd hid (hs.records ts hr)
  · exact absurd hid hg
  · exact hs.inFlight u (by rw [Cycle.inFlight,hq]; exact List.mem_cons_self) rfl

/-- The query does not find it, so that neither the loop nor a snapshot gives it a date. -/
theorem Undated.next (hs : Undated id s) (hg : LeftAlone limit id s e) (h : Steps s e t) : Undated id t := by
  have hdocs := hs.docs_next hg h
  refine ⟨hdocs,?_,?_,?_⟩
  · intro v hv hid
    rcases h.inFlight_cases hv with hv | hv
    · exact hs.inFlight v hv hid
    · exact hdocs v hv hid
  · intro ts hts hmem
    rcases h.fetch_cases with ⟨result,rfl,-,rfl⟩ | ⟨_,-,-,hnone,-⟩ | ⟨hnone,-⟩ | ⟨hsame,-⟩
    · obtain rfl : result = some ts := hts
      obtain ⟨u,hu,rfl⟩ := List.mem_map.mp hmem
      have hfound : Found Earlier (due s.clock) limit s.col.docs ts := hg
      obtain ⟨hdoc,hdue⟩ := hfound.mem hu
      obtain ⟨d,hd,-⟩ := due_iff.mp hdue
      rw [hs.docs u hdoc rfl] at hd
      cases hd
    · rw [hnone] at hts
      cases hts
    · rw [hnone] at hts
      cases hts
    · exact hs.records ts (hsame ▸ hts) hmem
  · intro a ha
    rcases h.fetch_cases with ⟨result,-,-,rfl⟩ | ⟨ts,-,hr,-,-,-,-,hasked⟩ | ⟨-,-,hasked⟩ | ⟨-,-,hasked⟩
    · exact hs.asked a ha
    · rw [hasked] at ha
      rcases List.mem_append.mp ha with ha | ha
      · exact hs.asked a ha
      · obtain ⟨id',hid',rfl⟩ := List.mem_map.mp ha
        rintro rfl
        exact hs.records ts hr hid'
    · exact hs.asked a (hasked ▸ ha)
    · exact hs.asked a (hasked ▸ ha)

/-- A torrent without a date is not refreshed before `Recover` or the ocean service gives it one, whatever
is ingested, scraped, published and written back meanwhile. -/
theorem undated_never_refreshed (limit : ℕ) (id : Bytes) (s₀ s : System R) (h₀ : Undated id s₀)
    (hs : Reach step (LeftAlone limit id) s₀ s) :
    (∀ a ∈ s.asked, a.2 ≠ id) ∧ ∀ t ∈ s.col.docs, t.infoHash = id → t.trackerLastTriedAt = none := by
  have hundated : Undated id s := hs.invariant h₀ (fun hs hg he => hs.next hg (steps_of_step he))
  exact ⟨hundated.asked,hundated.docs⟩

/-- The services before anything was found. -/
def empty : System Unit := ⟨0,⟨[],.nil⟩,none,none,[],[],0⟩

/-- A torrent is ingested and scraped, its snapshot is written back, and the loop runs six hours later. -/
def sampleEvents : List (Event Unit) :=
  [.ingest [1] (),.handleResult [1] (),.publish true,.consumeNewTorrent,.tick sixHours,.getRecords (some []),.updateMany none]

theorem sample_never_refreshed :
    ∃ s, Reach step (LeftAlone 1 [1]) empty s ∧ s.rounds = 1 ∧ (s.col.docs.map Torrent.infoHash) = [[1]] ∧
      ∀ a ∈ s.asked, a.2 ≠ [1] := by
  have hfound : Found Earlier (due sixHours) 1 [(⟨[1],none,()⟩ : Torrent Unit)] [] := ⟨[],.nil,.nil,rfl⟩
  have hguarded : Guarded step (LeftAlone 1 [1]) empty sampleEvents := by
    refine ⟨trivial,?_⟩
    rintro _ ⟨⟩
    refine ⟨trivial,?_⟩
    rintro _ ⟨⟩
    refine ⟨trivial,?_⟩
    rintro _ ⟨⟩
    refine ⟨trivial,?_⟩
    rintro _ ⟨⟩
    refine ⟨trivial,?_⟩
    rintro _ ⟨⟩
    refine ⟨hfound,?_⟩
    rintro _ ⟨⟩
    exact ⟨trivial,fun _ _ => trivial⟩
  have hreach := Reach.of_guarded sampleEvents rfl hguarded
  have h₀ : Undated [1] empty := ⟨nofun,nofun,nofun,nofun⟩
  exact ⟨_,hreach,rfl,rfl,(undated_never_refreshed 1 [1] empty _ h₀ hreach).1⟩

end Undated

/-- No service writes a date back that is out of date: a snapshot is consumed while its date is still that of
the document, and a date that is set from outside is less than `slack` old. -/
def Fresh (limit slack : ℕ) (s : System R) : Event R → Prop
  | .date now _ => s.clock < now + slack
  | .consumeNewTorrent => ∀ v queue, s.queue = v :: queue →
      ∃ t ∈ s.col.docs, t.infoHash = v.infoHash ∧ t.trackerLastTriedAt = v.trackerLastTriedAt
  | e => Answers limit s e

/-- Where a date behind a step is from, if none is written back late. -/
theorem Steps.date_cases {limit slack : ℕ} {s t : System R} {e : Event R} (hg : Fresh limit slack s e)
    (h : Steps s e t) {u : Torrent R} (hu : u ∈ t.col.docs) {y : ℕ} (hy : u.trackerLastTriedAt = some y) :
    (∃ v ∈ s.col.docs, v.infoHash = u.infoHash ∧ v.trackerLastTriedAt = some y) ∨
    (∃ ts, s.records = some ts ∧ u.infoHash ∈ hashes ts ∧ y = s.clock) ∨
    (y ≤ s.clock ∧ s.clock < y + slack) := by
  rcases h.doc_cases hu with ⟨v,hv,hid,hdate⟩ | hnone | ⟨ts,failed,-,hr,hid,hdate⟩ | ⟨now,ids,rfl,hnow,-,hdate⟩ |
    ⟨queue,rfl,hq⟩
  · exact .inl ⟨v,hv,hid,hdate.trans hy⟩
  · rw [hnone] at hy
    cases hy
  · rw [hdate] at hy
    exact .inr (.inl ⟨ts,hr,hid,(Option.some.inj hy).symm⟩)
  · rw [hdate] at hy
    cases hy
    exact .inr (.inr ⟨hnow,hg⟩)
  · obtain ⟨v,hv,hid,hdate⟩ := hg u queue hq
    exact .inl ⟨v,hv,hid,hdate.trans hy⟩

theorem nodup_hashes {limit clock : ℕ} {c : Collection R} {ts : List (Torrent R)}
    (h : Found Earlier (due clock) limit c.docs ts) : (hashes ts).Nodup := by
  obtain ⟨sorted,hperm,-,rfl⟩ := h
  have hsorted : (sorted.map Torrent.infoHash).Nodup :=
    (hperm.map _).nodup_iff.mpr (c.distinct.sublist (List.filter_sublist.map _))
  exact hsorted.sublist ((List.take_sublist _ _).map _)

section Turns

/-- The torrents apart from `id` whose dates are not later than `d`. -/
def ahead (c : Collection R) (id : Bytes) (d : ℕ) : Finset Bytes :=
  (hashes (c.docs.filter (·.trackerLastTriedAt.any (· ≤ d)))).toFinset.erase id

/-- The torrents that are about to be asked for without `id`. -/
def charged (s : System R) (id : Bytes) : Finset Bytes :=
  match s.records with
  | some ts => if (hashes ts).contains id then ∅ else (hashes ts).toFinset
  | none => ∅

/-- The torrent still has the date. -/
def Waits (id : Bytes) (d : ℕ) (s : System R) : Prop :=
  ∃ t ∈ s.col.docs, t.infoHash = id ∧ t.trackerLastTriedAt = some d

variable {limit n : ℕ} {id : Bytes} {d : ℕ} {s t : System R} {e : Event R}

theorem mem_ahead {c : Collection R} {x : Bytes} :
    x ∈ ahead c id d ↔ x ≠ id ∧ ∃ t ∈ c.docs, t.infoHash = x ∧ ∃ y ≤ d, t.trackerLastTriedAt = some y := by
  rw [ahead,Finset.mem_erase,List.mem_toFinset,hashes,List.mem_map]
  constructor
  · rintro ⟨hne,u,hu,hx⟩
    obtain ⟨hmem,hdate⟩ := List.mem_filter.mp hu
    obtain ⟨y,hy,hle⟩ := (Option.any_eq_true _ _).mp hdate
    exact ⟨hne,u,hmem,hx,y,of_decide_eq_true hle,hy⟩
  · rintro ⟨hne,u,hmem,hx,y,hle,hy⟩
    exact ⟨hne,u,List.mem_filter.mpr ⟨hmem,(Option.any_eq_true _ _).mpr ⟨y,hy,decide_eq_true hle⟩⟩,hx⟩

theorem charged_none (h : s.records = none) : charged s id = ∅ := by
  rw [charged,h]

theorem charged_mem {ts : List (Torrent R)} (h : s.records = some ts) (hid : id ∈ hashes ts) : charged s id = ∅ := by
  rw [charged,h]
  simp [hid]

theorem charged_some {ts : List (Torrent R)} (h : s.records = some ts) (hid : id ∉ hashes ts) :
    charged s id = (hashes ts).toFinset := by
  rw [charged,h]
  simp [hid]

/-- Six hours are not over for any date that a step sets. -/
theorem Steps.date_kept (hg : Fresh limit sixHours s e) (hdue : d + sixHours ≤ s.clock) (h : Steps s e t)
    {u : Torrent R} (hu : u ∈ t.col.docs) {y : ℕ} (hy : u.trackerLastTriedAt = some y) (hle : y ≤ d) :
    ∃ v ∈ s.col.docs, v.infoHash = u.infoHash ∧ v.trackerLastTriedAt = some y := by
  have hsix : 0 < sixHours := by decide
  rcases h.date_cases hg hu hy with hkept | ⟨ts,-,-,rfl⟩ | ⟨-,hrecent⟩
  · exact hkept
  · omega
  · omega

theorem Waits.before (hg : Fresh limit sixHours s e) (hdue : d + sixHours ≤ s.clock) (h : Steps s e t)
    (ht : Waits id d t) : Waits id d s := by
  obtain ⟨u,hu,hid,hdate⟩ := ht
  obtain ⟨v,hv,hid',hdate'⟩ := h.date_kept hg hdue hu hdate (Nat.le_refl d)
  exact ⟨v,hv,hid'.trans hid,hdate'⟩

theorem Steps.ahead_subset (hg : Fresh limit sixHours s e) (hdue : d + sixHours ≤ s.clock) (h : Steps s e t) :
    ahead t.col id d ⊆ ahead s.col id d := by
  intro x hx
  obtain ⟨hne,u,hu,rfl,y,hle,hy⟩ := mem_ahead.mp hx
  obtain ⟨v,hv,hid,hdate⟩ := h.date_kept hg hdue hu hy hle
  exact mem_ahead.mpr ⟨hne,v,hv,hid,y,hle,hdate⟩

/-- While the torrent waits, each call that came to ask has served as many others as it can, of those that
were ahead. -/
structure Served (limit n : ℕ) (id : Bytes) (d : ℕ) (s : System R) : Prop where
  due : d + sixHours ≤ s.clock
  ledger : Waits id d s → s.rounds*limit + (ahead s.col id d \ charged s id).card + (charged s id).card ≤ n
  full : Waits id d s → ∀ ts, s.records = some ts → id ∉ hashes ts → (charged s id).card = limit

/-- A query that passes over the torrent finds as many as it can, all of them ahead. -/
theorem charged_of_found {ts : List (Torrent R)} (hts : Found Earlier (Cycle.due s.clock) limit s.col.docs ts)
    (hr : t.records = some ts) (hdue : d + sixHours ≤ s.clock) (hwaits : Waits id d s) (hid : id ∉ hashes ts) :
    (charged t id).card = limit ∧ charged t id ⊆ ahead s.col id d := by
  obtain ⟨u,hu,rfl,hdate⟩ := hwaits
  have hnot : u ∉ ts := fun hmem => hid (List.mem_map_of_mem hmem)
  obtain ⟨hlen,hfirst⟩ := hts.all_first hu (due_iff.mpr ⟨d,hdate,hdue⟩) hnot
  have hnodup := nodup_hashes hts
  rw [charged_some hr hid]
  refine ⟨?_,?_⟩
  · rw [List.toFinset_card_of_nodup hnodup,hashes,List.length_map,hlen]
  · intro x hx
    obtain ⟨v,hv,rfl⟩ := List.mem_map.mp (List.mem_toFinset.mp hx)
    obtain ⟨hmem,hvdue⟩ := hts.mem hv
    obtain ⟨y,hy,-⟩ := due_iff.mp hvdue
    refine mem_ahead.mpr ⟨?_,v,hmem,rfl,y,?_,hy⟩
    · intro heq
      exact hid (heq ▸ List.mem_map_of_mem hv)
    · have hbefore := hfirst v hv
      rw [Earlier,hy,hdate] at hbefore
      exact hbefore

/-- Those that were asked for are not ahead any more. -/
theorem ahead_mark_subset {ts : List (Torrent R)} (hdue : d < s.clock) :
    ahead (s.col.mark s.clock (hashes ts)) id d ⊆ ahead s.col id d \ (hashes ts).toFinset := by
  intro x hx
  obtain ⟨hne,u,hu,rfl,y,hle,hy⟩ := mem_ahead.mp hx
  rcases mem_mark hu with ⟨-,hdate⟩ | ⟨hid,hmem⟩
  · rw [hdate] at hy
    cases hy
    omega
  · exact Finset.mem_sdiff.mpr ⟨mem_ahead.mpr ⟨hne,u,hmem,rfl,y,hle,hy⟩,fun h => hid (List.mem_toFinset.mp h)⟩

theorem Served.next (hs : Served limit n id d s) (hg : Fresh limit sixHours s e) (h : Steps s e t) :
    Served limit n id d t := by
  have hsix : 0 < sixHours := by decide
  have hdue := hs.due
  have hsub : ahead t.col id d ⊆ ahead s.col id d := h.ahead_subset hg hdue
  refine ⟨Nat.le_trans hdue h.clock_le,?_,?_⟩
  · intro hwaits
    have hbefore := hwaits.before hg hdue h
    have hledger := hs.ledger hbefore
    rcases h.fetch_cases with ⟨result,rfl,hidle,rfl⟩ | ⟨ts,-,hr,hnone,hrounds,-,hcol,-⟩ | ⟨hnone,hrounds,-⟩ |
      ⟨hsame,hrounds,-⟩
    · -- The loop charges those that it has found, if the torrent is not among them.
      rw [charged_none hidle,Finset.sdiff_empty,Finset.card_empty] at hledger
      cases result with
      | none =>
        rw [charged_none rfl,Finset.sdiff_empty,Finset.card_empty]
        exact hledger
      | some ts =>
        by_cases hid : id ∈ hashes ts
        · rw [charged_mem rfl hid,Finset.sdiff_empty,Finset.card_empty]
          exact hledger
        · have hfound := charged_of_found (t := { s with records := some ts }) hg rfl hdue hbefore hid
          have hcard := Finset.card_sdiff_add_card_eq_card hfound.2
          have hledger' : s.rounds*limit + (ahead s.col id d).card ≤ n := hledger
          dsimp only
          omega
    · -- The torrent is not among those that were asked for, since it has not got a new date.
      have hid : id ∉ hashes ts := by
        obtain ⟨u,hu,rfl,hdate⟩ := hwaits
        rw [hcol] at hu
        rcases mem_mark hu with ⟨-,hnow⟩ | ⟨hid,-⟩
        · rw [hnow] at hdate
          cases hdate
          omega
        · exact hid
      have hfull := hs.full hbefore ts hr hid
      have hlater : d < s.clock := by omega
      have hcard := Finset.card_le_card (@ahead_mark_subset _ id d s ts hlater)
      rw [charged_some hr hid] at hledger hfull
      rw [charged_none hnone,Finset.sdiff_empty,Finset.card_empty,hrounds,hcol,Nat.succ_mul]
      omega
    · rw [charged_none hnone,Finset.sdiff_empty,Finset.card_empty,hrounds]
      have hcard := Finset.card_le_card hsub
      have hback := Finset.card_le_card_sdiff_add_card (s := ahead s.col id d) (t := charged s id)
      omega
    · have hcharged : charged t id = charged s id := by rw [charged,charged,hsame]
      rw [hcharged,hrounds]
      have hcard := Finset.card_le_card (Finset.sdiff_subset_sdiff hsub (Finset.Subset.refl (charged s id)))
      omega
  · intro hwaits ts hts hid
    have hbefore := hwaits.before hg hdue h
    rcases h.fetch_cases with ⟨result,rfl,hidle,rfl⟩ | ⟨_,-,-,hnone,-⟩ | ⟨hnone,-⟩ | ⟨hsame,-⟩
    · obtain rfl : result = some ts := hts
      exact (charged_of_found (t := { s with records := some ts }) hg rfl hdue hbefore hid).1
    · rw [hnone] at hts
      cases hts
    · rw [hnone] at hts
      cases hts
    · have hcharged : charged t id = charged s id := by rw [charged,charged,hsame]
      rw [hcharged]
      exact hs.full hbefore ts (hsame ▸ hts) hid

/-- A torrent that is due waits only for those whose dates are not later than its own: as long as it keeps
its date, the calls that ask the tracker ask for as many of these as the limit allows. -/
theorem due_torrent_gets_its_turn (limit : ℕ) (id : Bytes) (d : ℕ) (s₀ s : System R) (hidle : s₀.records = none)
    (hdue : d + sixHours ≤ s₀.clock) (hs : Reach step (Fresh limit sixHours) s₀ s) (hwaits : Waits id d s) :
    (s.rounds - s₀.rounds)*limit ≤ (ahead s₀.col id d).card := by
  have h₀ : Served limit (s₀.rounds*limit + (ahead s₀.col id d).card) id d s₀ := by
    refine ⟨hdue,?_,?_⟩
    · intro _
      rw [charged_none hidle,Finset.sdiff_empty,Finset.card_empty]
      exact Nat.le_refl _
    · intro _ ts hts
      rw [hidle] at hts
      cases hts
  have hserved := hs.invariant h₀ (fun hs hg he => hs.next hg (steps_of_step he))
  have hledger := hserved.ledger hwaits
  rw [Nat.sub_mul]
  omega

/-- Two torrents of which the second is due as well. -/
def twoDue : System Unit := ⟨sixHours + 1,⟨[⟨[1],some 0,()⟩,⟨[2],some 1,()⟩],by decide⟩,none,none,[],[],0⟩

theorem found_take {clock : ℕ} {docs : List (Torrent R)} (hdue : ∀ t ∈ docs, due clock t = true)
    (hsorted : docs.Pairwise Earlier) (n : ℕ) : Found Earlier (due clock) n docs (docs.take n) :=
  ⟨docs,by rw [List.filter_eq_self.mpr hdue],hsorted,rfl⟩

theorem twoDue_found (n : ℕ) : Found Earlier (due (sixHours + 1)) n twoDue.col.docs (twoDue.col.docs.take n) := by
  have hsorted : twoDue.col.docs.Pairwise Earlier := by
    refine List.pairwise_pair.mpr ?_
    exact Nat.zero_le 1
  refine found_take ?_ hsorted n
  have hdue : twoDue.col.docs.all (due (sixHours + 1)) = true := by decide +kernel
  exact List.all_eq_true.mp hdue

/-- The first of them was asked for. -/
def oneServed : System Unit :=
  ⟨sixHours + 1,twoDue.col.mark (sixHours + 1) [[1]],none,none,[],[(sixHours + 1,[1])],1⟩

theorem twoDue_second_waits :
    Reach step (Fresh 1 sixHours) twoDue oneServed ∧ Waits [2] 1 oneServed ∧
      (oneServed.rounds - twoDue.rounds)*1 ≤ (ahead twoDue.col [2] 1).card := by
  have hguarded : Guarded step (Fresh 1 sixHours) twoDue
      [.getRecords (some (twoDue.col.docs.take 1)),.updateMany none] := by
    refine ⟨twoDue_found 1,?_⟩
    rintro _ ⟨⟩
    exact ⟨trivial,fun _ _ => trivial⟩
  have hreach : Reach step (Fresh 1 sixHours) twoDue oneServed := Reach.of_guarded _ rfl hguarded
  have hwaits : Waits [2] 1 oneServed := ⟨⟨[2],some 1,()⟩,List.mem_cons_of_mem _ List.mem_cons_self,rfl,rfl⟩
  exact ⟨hreach,hwaits,due_torrent_gets_its_turn 1 [2] 1 twoDue oneServed rfl (by decide +kernel) hreach hwaits⟩

end Turns

section Spacing

/-- Whoever was asked for keeps a date that is not before it, or none. -/
structure Spaced (s : System R) : Prop where
  apart : s.asked.Pairwise (fun a b => a.2 = b.2 → a.1 + sixHours ≤ b.1)
  past : ∀ a ∈ s.asked, a.1 ≤ s.clock
  kept : ∀ a ∈ s.asked, ∀ t ∈ s.col.docs, t.infoHash = a.2 → ∀ d, t.trackerLastTriedAt = some d → a.1 ≤ d
  nodup : ∀ ts, s.records = some ts → (hashes ts).Nodup
  due : ∀ ts, s.records = some ts → ∀ a ∈ s.asked, a.2 ∈ hashes ts → a.1 + sixHours ≤ s.clock

variable {limit : ℕ} {s t : System R} {e : Event R}

theorem Spaced.kept_next (hs : Spaced s) (hg : Fresh limit 1 s e) (h : Steps s e t) :
    ∀ a ∈ s.asked, ∀ u ∈ t.col.docs, u.infoHash = a.2 → ∀ d, u.trackerLastTriedAt = some d → a.1 ≤ d := by
  intro a ha u hu hid d hd
  have hpast := hs.past a ha
  rcases h.date_cases hg hu hd with ⟨v,hv,hid',hdate⟩ | ⟨ts,-,-,rfl⟩ | ⟨hle,hrecent⟩
  · exact hs.kept a ha v hv (hid'.trans hid) d hdate
  · exact hpast
  · omega

theorem Spaced.next (hs : Spaced s) (hg : Fresh limit 1 s e) (h : Steps s e t) : Spaced t := by
  have hkept := hs.kept_next hg h
  have hclock := h.clock_le
  rcases h.fetch_cases with ⟨result,rfl,hidle,rfl⟩ | ⟨ts,-,hr,hnone,-,hsame,hcol,hasked⟩ | ⟨hnone,-,hasked⟩ |
    ⟨hsame,-,hasked⟩
  · refine ⟨hs.apart,hs.past,hs.kept,?_,?_⟩
    · rintro ts rfl
      exact nodup_hashes hg
    · rintro ts rfl a ha hid
      obtain ⟨u,hu,hhash⟩ := List.mem_map.mp hid
      have hfound : Found Earlier (Cycle.due s.clock) limit s.col.docs ts := hg
      obtain ⟨hmem,hdue⟩ := hfound.mem hu
      obtain ⟨d,hd,hage⟩ := due_iff.mp hdue
      have hle := hs.kept a ha u hmem hhash d hd
      exact Nat.le_trans (Nat.add_le_add_right hle _) hage
  · have hnew : ∀ a ∈ (hashes ts).map (s.clock,·), a.1 = s.clock ∧ a.2 ∈ hashes ts := by
      intro a ha
      obtain ⟨id,hid,rfl⟩ := List.mem_map.mp ha
      exact ⟨rfl,hid⟩
    refine ⟨?_,?_,?_,?_,?_⟩
    · rw [hasked,List.pairwise_append]
      refine ⟨hs.apart,?_,?_⟩
      · -- Within one call each torrent is asked for once.
        rw [List.pairwise_map]
        exact (hs.nodup ts hr).imp (fun hne heq => absurd heq hne)
      · intro a ha b hb hid
        obtain ⟨hb₁,hb₂⟩ := hnew b hb
        rw [hb₁]
        exact hs.due ts hr a ha (hid ▸ hb₂)
    · intro a ha
      rw [hasked] at ha
      rcases List.mem_append.mp ha with ha | ha
      · exact Nat.le_trans (hs.past a ha) hclock
      · rw [(hnew a ha).1]
        exact hclock
    · intro a ha u hu hid d hd
      rw [hasked] at ha
      rcases List.mem_append.mp ha with ha | ha
      · exact hkept a ha u hu hid d hd
      · obtain ⟨ha₁,ha₂⟩ := hnew a ha
        rw [hcol] at hu
        rcases mem_mark hu with ⟨-,hdate⟩ | ⟨hnot,-⟩
        · rw [hdate] at hd
          cases hd
          exact ha₁.le
        · exact absurd (hid ▸ ha₂) hnot
    · intro ts' hts'
      rw [hnone] at hts'
      cases hts'
    · intro ts' hts'
      rw [hnone] at hts'
      cases hts'
  · refine ⟨hasked ▸ hs.apart,?_,hasked ▸ hkept,?_,?_⟩
    · intro a ha
      exact Nat.le_trans (hs.past a (hasked ▸ ha)) hclock
    · intro ts' hts'
      rw [hnone] at hts'
      cases hts'
    · intro ts' hts'
      rw [hnone] at hts'
      cases hts'
  · refine ⟨hasked ▸ hs.apart,?_,hasked ▸ hkept,?_,?_⟩
    · intro a ha
      exact Nat.le_trans (hs.past a (hasked ▸ ha)) hclock
    · intro ts hts
      exact hs.nodup ts (hsame ▸ hts)
    · intro ts hts a ha hid
      exact Nat.le_trans (hs.due ts (hsame ▸ hts) a (hasked ▸ ha) hid) hclock

/-- No torrent is asked for twice within six hours, unless a date is written back late. -/
theorem refreshes_six_hours_apart (limit : ℕ) (s₀ s : System R) (hidle : s₀.records = none) (hnone : s₀.asked = [])
    (hs : Reach step (Fresh limit 1) s₀ s) :
    s.asked.Pairwise (fun a b => a.2 = b.2 → a.1 + sixHours ≤ b.1) := by
  have h₀ : Spaced s₀ := by
    refine ⟨?_,?_,?_,?_,?_⟩
    · rw [hnone]
      exact .nil
    · simp [hnone]
    · simp [hnone]
    · simp [hidle]
    · simp [hidle]
  have hspaced : Spaced s := hs.invariant h₀ (fun hs hg he => hs.next hg (steps_of_step he))
  exact hspaced.apart

/-- Both of them were asked for, and six hours have passed. -/
def bothServed : System Unit :=
  ⟨2*sixHours + 1,twoDue.col.mark (sixHours + 1) [[1],[2]],none,none,[],[(sixHours + 1,[1]),(sixHours + 1,[2])],1⟩

theorem bothServed_found :
    Found Earlier (due bothServed.clock) 2 bothServed.col.docs (bothServed.col.docs.take 2) := by
  have hsorted : bothServed.col.docs.Pairwise Earlier := by
    refine List.pairwise_pair.mpr ?_
    exact Nat.le_refl (sixHours + 1)
  refine found_take ?_ hsorted 2
  have hdue : bothServed.col.docs.all (due bothServed.clock) = true := by decide +kernel
  exact List.all_eq_true.mp hdue

theorem twoDue_asked_again :
    ∃ s, Reach step (Fresh 2 1) twoDue s ∧ s.asked.map Prod.snd = [[1],[2],[1],[2]] ∧
      s.asked.Pairwise (fun a b => a.2 = b.2 → a.1 + sixHours ≤ b.1) := by
  have hfirst : Guarded step (Fresh 2 1) twoDue
      [.getRecords (some (twoDue.col.docs.take 2)),.updateMany none,.tick sixHours] := by
    refine ⟨twoDue_found 2,?_⟩
    rintro _ ⟨⟩
    refine ⟨trivial,?_⟩
    rintro _ ⟨⟩
    exact ⟨trivial,fun _ _ => trivial⟩
  have hsecond : Guarded step (Fresh 2 1) bothServed
      [.getRecords (some (bothServed.col.docs.take 2)),.updateMany none] := by
    refine ⟨bothServed_found,?_⟩
    rintro _ ⟨⟩
    exact ⟨trivial,fun _ _ => trivial⟩
  have hreach : Reach step (Fresh 2 1) twoDue bothServed := Reach.of_guarded _ rfl hfirst
  have hreach' := hreach.trans (Reach.of_guarded _ rfl hsecond)
  exact ⟨_,hreach',rfl,refreshes_six_hours_apart 2 twoDue _ rfl rfl hreach'⟩

end Spacing

end DhtOcean.Tracker.Cycle
