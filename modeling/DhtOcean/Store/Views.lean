import DhtOcean.Foundation.Transition
import DhtOcean.Store.Documents
import DhtOcean.Store.Selection
import DhtOcean.Tracker.Cycle

/-! # What the models keep of a document

The models of the tracker service and of the ocean keep of a torrent what their
loops read. Each of their steps goes with writes to the documents. Behind every run
a document reads as the torrent that the model has, so a law of the model is a law
of the documents.
-/
namespace DhtOcean.Views
open Foundation Documents
open Ingestion (Collection Torrent Source)

section Joint
variable {S L : Type} {step : S → L → Option S} {writes : S → L → List Write → Prop} {view : S → Store}
  {x y : S × Collection}

/-- A system next to the documents that its steps write to. -/
def onDocuments (step : S → L → Option S) (x : S × Collection) (l : L × List Write) : Option (S × Collection) :=
  (step x.1 l.1).map (·,l.2.foldl write x.2)

/-- The writes are those that the step stands for. -/
def Issued (writes : S → L → List Write → Prop) (x : S × Collection) (l : L × List Write) : Prop :=
  writes x.1 l.1 l.2 ∧ ∀ w ∈ l.2, w.Valid

/-- If each step does to the view what its writes do, then the documents read as the view says. -/
theorem represents_reach
    (hstep : ∀ {s l t ws}, step s l = some t → writes s l ws → ws.foldl Store.write (view s) = view t)
    (h₀ : Represents x.2 (view x.1)) (h : Reach (onDocuments step) (Issued writes) x y) : Represents y.2 (view y.1) := by
  apply h.invariant (P := fun y => Represents y.2 (view y.1)) h₀
  rintro ⟨s,coll⟩ ⟨l,ws⟩ z hs ⟨hws,hvalid⟩ hz
  obtain ⟨t,ht,rfl⟩ := Option.map_eq_some_iff.mp hz
  have hview := hstep ht hws
  rw [← hview]
  exact hs.writes hvalid

end Joint

/-- The date of an attempt, set for some documents. -/
def dates (now : ℤ) (ids : List Bytes) : List Write := ids.map (.update · (.tried now))

theorem dates_valid (now : ℤ) (ids : List Bytes) : ∀ w ∈ dates now ids, w.Valid := by
  intro w hw
  obtain ⟨id,-,rfl⟩ := List.mem_map.mp hw
  trivial

theorem foldl_dates (now : ℤ) (ids : List Bytes) (store : Store) (id : Bytes) :
    (dates now ids).foldl Store.write store id =
      if ids.contains id then (store id).map (Change.apply · (.tried now)) else store id := by
  induction ids generalizing store with
  | nil => rfl
  | cons i ids ih =>
    have htwice (t : Option Torrent) :
        (t.map (Change.apply · (.tried now))).map (Change.apply · (.tried now)) = t.map (Change.apply · (.tried now)) := by
      cases t <;> rfl
    rw [dates,List.map_cons,List.foldl_cons,← dates,ih,List.contains_cons,Store.write_update]
    by_cases hid : id = i
    · simp only [hid,if_pos,beq_self_eq_true,Bool.true_or,htwice,ite_self]
    · simp only [if_neg hid,beq_eq_false_iff_ne.mpr hid,Bool.false_or]

section Cycle
open Tracker Tracker.Cycle
variable {s t : Cycle.System Torrent} {e : Cycle.Event Torrent} {ws : List Write}

/-- The torrent whose date the cycle keeps apart. -/
def whole (v : Recover.Torrent Torrent) : Torrent :=
  { v.rest with infoHash := v.infoHash, trackerLastTriedAt := v.trackerLastTriedAt.map Int.ofNat }

def cycleView (s : Cycle.System Torrent) : Store := fun id => (s.col.docs.find? (·.infoHash == id)).map whole

/-- What the steps of the cycle write. The fields that a step sets are those of its change, and a message carries
its torrent whole. -/
inductive Writes (s : Cycle.System Torrent) : Cycle.Event Torrent → List Write → Prop
  | tick (d : ℕ) : Writes s (.tick d) []
  | getRecords (result : Option (List (Recover.Torrent Torrent))) : Writes s (.getRecords result) []
  | refreshed (ts : List (Recover.Torrent Torrent)) (hr : s.records = some ts) :
      Writes s (.updateMany none) (dates s.clock (hashes ts))
  | failed (marked : List Bytes) : Writes s (.updateMany (some marked)) (dates s.clock marked)
  | date (now : ℕ) (ids : List Bytes) : Writes s (.date now ids) (dates now ids)
  | ingest (now : ℤ) (source : Source) : Writes s (.ingest source.id (source.torrent now)) [.upsert (source.torrent now)]
  | updateTracker (id : Bytes) (rest : Torrent) (now : ℤ) (seeders leechers : UInt32)
      (hrest : ∀ v ∈ s.col.docs, v.infoHash = id → rest = Change.apply v.rest (.tracker now seeders leechers)) :
      Writes s (.setFields id rest) [.update id (.tracker now seeders leechers)]
  | indexed (id : Bytes) (rest : Torrent)
      (hrest : ∀ v ∈ s.col.docs, v.infoHash = id → rest = Change.apply v.rest .indexed) :
      Writes s (.setFields id rest) [.update id .indexed]
  | handleResult (id : Bytes) (rest : Torrent) (now : ℤ) (seeders leechers : UInt32)
      (hrest : ∀ v ∈ s.col.docs, v.infoHash = id → rest = Change.apply v.rest (.tracker now seeders leechers)) :
      Writes s (.handleResult id rest) [.update id (.tracker now seeders leechers)]
  | publish (ok : Bool) : Writes s (.publish ok) []
  | consumeNewTorrent (v : Recover.Torrent Torrent) (queue : List (Recover.Torrent Torrent)) (hq : s.queue = v :: queue) :
      Writes s .consumeNewTorrent [.upsert (whole v)]

section Find
variable {R : Type} (c : Recover.Collection R)

/-- A map that keeps the keys maps what is found. -/
theorem find_map {f : Recover.Torrent R → Recover.Torrent R} (hf : ∀ v, (f v).infoHash = v.infoHash)
    (docs : List (Recover.Torrent R)) (id : Bytes) :
    (docs.map f).find? (·.infoHash == id) = (docs.find? (·.infoHash == id)).map f := by
  rw [List.find?_map]
  congr 2
  funext v
  exact congrArg (· == id) (hf v)

theorem find_upsert (t : Recover.Torrent R) (id : Bytes) :
    (upsert c t).docs.find? (·.infoHash == id) =
      if id = t.infoHash then some t else c.docs.find? (·.infoHash == id) := by
  rw [upsert]
  by_cases hid : id = t.infoHash
  · rw [List.find?_cons_of_pos (by simp [hid]),if_pos hid]
  · rw [List.find?_cons_of_neg (by simp [Ne.symm hid]),if_neg hid,List.find?_filter]
    congr 1
    funext v
    by_cases hv : v.infoHash = id <;> simp [hv,hid]

end Find

theorem whole_mark (now : ℕ) (ids : List Bytes) (v : Recover.Torrent Torrent) :
    whole (v.mark now ids) = if ids.contains v.infoHash then Change.apply (whole v) (.tried now) else whole v := by
  unfold Recover.Torrent.mark
  split <;> rfl

theorem cycleView_mark (now : ℕ) (ids : List Bytes) (ht : t.col = s.col.mark now ids) :
    (dates now ids).foldl Store.write (cycleView s) = cycleView t := by
  funext id
  rw [foldl_dates,cycleView,cycleView,ht,Recover.Collection.mark,find_map (Recover.Torrent.infoHash_mark now ids),
    Option.map_map]
  cases hv : s.col.docs.find? (·.infoHash == id) with
  | none => simp
  | some v =>
    have hid : v.infoHash = id := by simpa using List.find?_some hv
    simp only [Option.map_some,Function.comp_apply,whole_mark,hid]
    split <;> rfl

theorem cycleView_upsert {v : Recover.Torrent Torrent} {u : Torrent} (hv : whole v = u) (ht : t.col = upsert s.col v) :
    Store.write (cycleView s) (.upsert u) = cycleView t := by
  subst hv
  funext id
  rw [Store.write_upsert,cycleView,cycleView,ht,find_upsert,apply_ite (Option.map whole)]
  rfl

/-- A change that leaves the date alone is made in the other fields. -/
theorem cycleView_setRest {id : Bytes} {rest : Torrent} {c : Change} (hc : ∀ now, c ≠ .tried now)
    (hrest : ∀ v ∈ s.col.docs, v.infoHash = id → rest = c.apply v.rest) (ht : t.col = setRest s.col id rest) :
    Store.write (cycleView s) (.update id c) = cycleView t := by
  funext i
  rw [Store.write_update,cycleView,cycleView,ht,setRest,find_map (infoHash_setRest id rest)]
  cases hv : s.col.docs.find? (·.infoHash == i) with
  | none => simp
  | some v =>
    have hi : v.infoHash = i := by simpa using List.find?_some hv
    by_cases hid : i = id
    · rw [if_pos hid,Option.map_some,Option.map_some,Option.map_some,Torrent.setRest,if_pos (hi.trans hid),
        hrest v (List.mem_of_find?_eq_some hv) (hi.trans hid)]
      cases c with
      | tried now => exact absurd rfl (hc now)
      | tracker now seeders leechers => rfl
      | indexed => rfl
    · have hne : v.infoHash ≠ id := fun h => hid (hi.symm.trans h)
      rw [if_neg hid,Option.map_some,Option.map_some,Torrent.setRest,if_neg hne,Option.map_some]

theorem cycleView_step (h : Cycle.step s e = some t) (hws : Writes s e ws) :
    ws.foldl Store.write (cycleView s) = cycleView t := by
  have hstep := steps_of_step h
  cases hws with
  | tick d => cases hstep; rfl
  | getRecords result => cases hstep; rfl
  | refreshed ts hr =>
    cases hstep with
    | refreshed ts' hr' =>
      obtain rfl := Option.some.inj (hr.symm.trans hr')
      exact cycleView_mark s.clock (hashes ts) rfl
  | failed marked => cases hstep; exact cycleView_mark s.clock marked rfl
  | date now ids => cases hstep; exact cycleView_mark now ids rfl
  | ingest now source =>
    cases hstep
    refine cycleView_upsert ?_ rfl
    have hnew := Ingestion.new_torrent now source
    rw [whole,Option.map_none,← hnew.infoHash,← hnew.trackerLastTriedAt]
  | updateTracker id rest now seeders leechers hrest => cases hstep; exact cycleView_setRest nofun hrest rfl
  | indexed id rest hrest => cases hstep; exact cycleView_setRest nofun hrest rfl
  | handleResult id rest now seeders leechers hrest => cases hstep; exact cycleView_setRest nofun hrest rfl
  | publish ok => cases hstep; rfl
  | consumeNewTorrent v queue hq =>
    cases hstep with
    | consumeNewTorrent v' queue' hq' =>
      obtain ⟨rfl,-⟩ := List.cons.inj (hq.symm.trans hq')
      exact cycleView_upsert rfl rfl

/-- Behind every run of the cycle a document reads as the torrent that the cycle has, with the date that it has
for it. -/
theorem cycle_documents {x y : Cycle.System Torrent × Collection} (h₀ : Represents x.2 (cycleView x.1))
    (h : Reach (onDocuments Cycle.step) (Issued Writes) x y) (id : Bytes) :
    findByID y.2 id = ((y.1.col.docs.find? (·.infoHash == id)).map whole).elim (.error .noDocuments) .ok :=
  (represents_reach cycleView_step h₀ h).findByID id

/-- Nothing is stored yet. -/
def noDocuments : Cycle.System Torrent × Collection := (⟨0,⟨[],List.nodup_nil⟩,none,none,[],[],0⟩,fun _ => none)

def commit : Source := .commitTorrent ⟨[1],ascii "x",[⟨3,[ascii "a"],[]⟩]⟩

def counted : Torrent := Change.apply (commit.torrent 0) (.tracker 2 7 2)

/-- A torrent is committed, its counts are published, and its date is set before the message is consumed. -/
def overtaken : List (Cycle.Event Torrent × List Write) :=
  [(.ingest commit.id (commit.torrent 0),[.upsert (commit.torrent 0)]),
    (.handleResult commit.id counted,[.update commit.id (.tracker 2 7 2)]),
    (.publish true,[]),
    (.tick 5,[]),
    (.date 4 [commit.id],dates 4 [commit.id]),
    (.consumeNewTorrent,[.upsert counted])]

theorem valid_upsert {t : Torrent} (h : t.raw = none) : (Write.upsert t).Valid := by
  intro hnull
  cases h.symm.trans hnull

theorem overtaken_guarded : Guarded (onDocuments Cycle.step) (Issued Writes) noDocuments overtaken := by
  refine ⟨⟨.ingest 0 commit,List.forall_mem_singleton.mpr (valid_upsert rfl)⟩,?_⟩
  intro s₁ h₁
  obtain rfl := Option.some.inj h₁
  refine ⟨⟨.handleResult _ _ 2 7 2 ?_,List.forall_mem_singleton.mpr trivial⟩,?_⟩
  · intro v hv _
    obtain rfl := List.mem_singleton.mp hv
    rfl
  intro s₂ h₂
  obtain rfl := Option.some.inj h₂
  refine ⟨⟨.publish true,List.forall_mem_nil _⟩,?_⟩
  intro s₃ h₃
  obtain rfl := Option.some.inj h₃
  refine ⟨⟨.tick 5,List.forall_mem_nil _⟩,?_⟩
  intro s₄ h₄
  obtain rfl := Option.some.inj h₄
  refine ⟨⟨.date 4 _,dates_valid 4 _⟩,?_⟩
  intro s₅ h₅
  obtain rfl := Option.some.inj h₅
  refine ⟨⟨.consumeNewTorrent ⟨commit.id,none,counted⟩ [] rfl,List.forall_mem_singleton.mpr (valid_upsert rfl)⟩,?_⟩
  intro _ _
  trivial

/-- The counts are there, and the date is gone. -/
theorem overtaken_date_lost : ∃ y, Reach (onDocuments Cycle.step) (Issued Writes) noDocuments y ∧
    (findByID y.2 commit.id).map (fun t => (t.seeders,t.trackerLastTriedAt)) = .ok (some 7,none) := by
  obtain ⟨y,hy⟩ := Option.isSome_iff_exists.mp
    (show (run (onDocuments Cycle.step) noDocuments overtaken).isSome = true by rfl)
  have hreach := Reach.of_guarded overtaken hy overtaken_guarded
  refine ⟨y,hreach,?_⟩
  rw [cycle_documents (fun _ => .none) hreach]
  obtain rfl := Option.some.inj hy
  rfl

end Cycle

section Recover
open Tracker Tracker.Cycle
variable {R E : Type} {limit fuel n : ℕ} {r : Recover.Recovered R E}

/-- The dates alone change. -/
def Dates (_ : Cycle.System R) (e : Cycle.Event R) : Prop := ∃ now ids, e = .date now ids

/-- What `Recover` makes of the collection, the cycle makes of it with the updates of its rounds. -/
theorem recover_reach {sv : Recover.Services R E limit} {s : Cycle.System R} (hdate : ∀ n, sv.date n ≤ s.clock)
    (h : Recover.recover sv fuel n s.col = some r) : Reach Cycle.step Dates s { s with col := r.col } := by
  induction fuel generalizing n s r with
  | zero => cases h
  | succ fuel ih =>
    have hmark (ids : List Bytes) : Reach Cycle.step Dates s { s with col := s.col.mark (sv.date n) ids } :=
      .next .start ⟨sv.date n,ids,rfl⟩ (if_pos (hdate n))
    rw [Recover.recover] at h
    rcases Recover.round_cases sv n s.col with
      ⟨-,hround⟩ | ⟨ts,e,hround⟩ | ⟨ts,ids,-,-,-,-,⟨e,hround⟩ | ⟨-,hround⟩⟩
    · rw [hround] at h
      cases h
      exact .start
    · rw [hround] at h
      cases h
      exact .start
    · rw [hround] at h
      cases h
      exact hmark ids
    · rw [hround] at h
      obtain ⟨r',hr',rfl⟩ := Option.map_eq_some_iff.mp h
      have hrest := ih (s := { s with col := s.col.mark (sv.date n) ids }) hdate hr'
      exact (hmark ids).trans hrest

end Recover

section TrackerState
variable {s t : Store.System Torrent} {e : Store.Event} {id : Bytes} {others : Store}

/-- The torrent whose tracker state the loops keep apart. -/
def tracked (id : Bytes) (t : Store.Torrent Torrent) : Torrent :=
  { t.rest with
    infoHash := id
    seeders := t.seeders
    leechers := t.leechers
    trackerUpdatedAt := t.trackerUpdatedAt.map Int.ofNat
    updatedAt := t.updatedAt.map Int.ofNat
    searchUpdated := t.searchUpdated
    trackerLastTriedAt := t.trackerLastTriedAt.map Int.ofNat }

/-- The one document that the loops share, among others. -/
def trackerView (id : Bytes) (others : Store) (s : Store.System Torrent) : Store :=
  others.write (.upsert (tracked id s.doc.torrent))

/-- What the loops write. -/
def trackerWrites (id : Bytes) (s : Store.System Torrent) : Store.Event → List Write
  | .refreshTracker true => [.update id (.tried s.clock)]
  | .handleResult seeders leechers => [.update id (.tracker s.resultsAt seeders leechers)]
  | .consumeNewTorrent => (s.queue.head?.map fun v => .upsert (tracked id v.torrent)).toList
  | _ => []

theorem trackerView_eq (id : Bytes) (others : Store) (s : Store.System Torrent) (i : Bytes) :
    trackerView id others s i = if i = id then some (tracked id s.doc.torrent) else others i := rfl

theorem trackerView_upsert (id : Bytes) (others : Store) (s : Store.System Torrent) (v : Store.Version Torrent) :
    Store.write (trackerView id others s) (.upsert (tracked id v.torrent)) =
      trackerView id others { s with doc := v } := by
  funext i
  rw [Store.write_upsert,trackerView_eq,trackerView_eq,show (tracked id v.torrent).infoHash = id from rfl]
  split <;> rfl

theorem trackerView_update (others : Store) {c : Change} {v : Store.Version Torrent}
    (hv : c.apply (tracked id s.doc.torrent) = tracked id v.torrent) :
    Store.write (trackerView id others s) (.update id c) = trackerView id others { s with doc := v } := by
  funext i
  rw [Store.write_update,trackerView_eq,trackerView_eq,← hv]
  split <;> rfl

theorem trackerView_step (h : Store.step s e = some t) :
    (trackerWrites id s e).foldl Store.write (trackerView id others s) = trackerView id others t := by
  rcases Store.step_cases h with ⟨d,rfl,rfl⟩ | ⟨rfl,-,rfl⟩ | ⟨rfl,-,rfl⟩ | ⟨rfl,rfl⟩ | ⟨rfl,rfl⟩ | ⟨n,m,rfl,-,rfl⟩ |
    ⟨v,rfl,-,rfl⟩ | ⟨rfl,rfl⟩ | ⟨v,queue,rfl,hq,rfl⟩
  · rfl
  · rfl
  · exact trackerView_update others rfl
  · rfl
  · rfl
  · exact trackerView_update others rfl
  · rfl
  · rfl
  · rw [trackerWrites,hq]
    exact trackerView_upsert id others s v

/-- Behind every run of the loops their document reads as they have it, and no other is touched. -/
theorem tracker_documents {x y : Store.System Torrent × Collection} (h₀ : Represents x.2 (trackerView id others x.1))
    (h : Reach (onDocuments Store.step) (Issued fun s e ws => ws = trackerWrites id s e) x y) :
    findByID y.2 id = .ok (tracked id y.1.doc.torrent) ∧ ∀ i, i ≠ id → findByID y.2 i = findByID x.2 i := by
  have hstep : ∀ {s e t ws}, Store.step s e = some t → ws = trackerWrites id s e →
      ws.foldl Store.write (trackerView id others s) = trackerView id others t := by
    rintro s e t ws hst rfl
    exact trackerView_step hst
  have hy := represents_reach hstep h₀ h
  constructor
  · rw [hy.findByID,trackerView_eq,if_pos rfl]
    rfl
  · intro i hi
    have hother (s : Store.System Torrent) : trackerView id others s i = others i := if_neg hi
    rw [hy.findByID,h₀.findByID,hother,hother]

end TrackerState

section Selection
variable {E : Type} {db db' : Selection.Database E} {coll coll' : Collection} {store : Store} {size : Int64}
  {now date : ℤ} {ok : ℕ → Bool} {ids : List Bytes} {ws : List Write}

/-- What the queries read of a torrent. -/
def record (t : Torrent) : Selection.Torrent := ⟨t.infoHash,t.updatedAt,t.trackerUpdatedAt,t.trackerLastTriedAt⟩

/-- The torrents are stored under their hashes, and the list has all of these. -/
def Keyed (store : Store) (ids : List Bytes) : Prop := ∀ id t, store id = some t → id ∈ ids ∧ t.infoHash = id

theorem Keyed.write {w : Write} (h : Keyed store ids) (hw : ∀ t, w = .upsert t → t.infoHash ∈ ids) :
    Keyed (store.write w) ids := by
  intro id t ht
  cases w with
  | upsert u =>
    rw [Store.write_upsert] at ht
    split at ht
    · rename_i hid
      obtain rfl := Option.some.inj ht
      exact ⟨hid ▸ hw u rfl,hid.symm⟩
    · exact h id t ht
  | update i c =>
    rw [Store.write_update] at ht
    split at ht
    · obtain ⟨u,hu,rfl⟩ := Option.map_eq_some_iff.mp ht
      obtain ⟨hmem,hkey⟩ := h id u hu
      refine ⟨hmem,?_⟩
      cases c <;> exact hkey
    · exact h id t ht

theorem Keyed.writes (h : Keyed store ids) (hws : ∀ t, .upsert t ∈ ws → t.infoHash ∈ ids) :
    Keyed (ws.foldl Store.write store) ids := by
  induction ws generalizing store with
  | nil => exact h
  | cons w ws ih =>
    apply ih
    · apply h.write
      rintro t rfl
      exact hws t List.mem_cons_self
    · intro t ht
      exact hws t (List.mem_cons_of_mem _ ht)

/-- The records of the torrents under some hashes. -/
def records (store : Store) (ids : List Bytes) : List Selection.Torrent :=
  ids.filterMap (fun id => (store id).map record)

theorem Keyed.distinct (h : Keyed store ids) (hids : ids.Nodup) : ((records store ids).map (·.infoHash)).Nodup := by
  rw [records,List.map_filterMap]
  apply hids.filterMap
  intro id id' key hid hid'
  simp only [Option.mem_def,Option.map_map,Option.map_eq_some_iff,Function.comp_apply] at hid hid'
  obtain ⟨t,ht,rfl⟩ := hid
  obtain ⟨t',ht',hkey⟩ := hid'
  exact (h id t ht).2.symm.trans (hkey.symm.trans (h id' t' ht').2)

end Selection

end DhtOcean.Views
