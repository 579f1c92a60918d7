import DhtOcean.Fetcher.Announcement
import DhtOcean.Foundation.Replacement

/-! # The bloom filter over the lives of the crawler

The filter is loaded when the fetcher is made and saved when it is stopped. The process
may end at any point, also in the middle of saving, and is started again. The documents
outlive it, and of the filter the file that the last completed stop put in place.
-/
namespace DhtOcean.Persistence
open Foundation Bloom Fetcher

/-- While the process is down the fetcher is what outlives it. In a life, `added` has the additions
that the loaded filter came with before its own. -/
structure System where
  up : Bool
  fetcher : TorrentFetcher
  saver : Saver TorrentFetcher

inductive Event
  /-- `NewTorrentFetcher`; without `opened` one of its other calls fails. -/
  | start (opened : Bool)
  | fetch (e : Fetcher.Event)
  /-- The next call of `Stop`. The workers that it cancels may still have a torrent at hand. -/
  | stop (c : Saver.Call)
  /-- The process ends, by itself or by a panic. -/
  | exit

/-- What outlives the process: the documents and the record of what was published. -/
def remains (f : TorrentFetcher) : TorrentFetcher :=
  { newTorrentFetcher with collection := f.collection, published := f.published }

/-- `Exists` and `Add` wait for the lock that `Save` holds. -/
def usesFilter : Fetcher.Event → Bool
  | .push _ => true
  | .add _ => true
  | _ => false

def saving (saver : Saver TorrentFetcher) : Bool :=
  match saver.stage with
  | .writing _ _ => true
  | _ => false

/-- The info hashes in the filter that was last put in place. -/
def System.durable (s : System) : List Bytes := s.saver.stored.elim [] TorrentFetcher.added

section Model
variable (baseHash : Bytes → UInt64) (codec : BitmapCodec) (torrentMaxQueueSize : ℕ)

def encode (f : TorrentFetcher) : Bytes := f.bloomFilter.save codec

/-- The filter that `NewTorrentFetcher` begins with; `none` if the file is no saved filter. -/
def openFilter : Option Bytes → Option BloomFilter
  | none => some (newBloomFilter (targetCount * 15))
  | some raw => (BloomFilter.loadBloomFilter codec raw).map Prod.fst

namespace System

def start (s : System) (opened : Bool) : Option System :=
  if s.up then none
  else match opened, openFilter codec s.saver.file with
    | true, some bloomFilter => some { s with
        up := true
        fetcher := { s.fetcher with bloomFilter := bloomFilter, added := s.durable } }
    | _, _ => some s

def fetch (s : System) (e : Fetcher.Event) : Option System :=
  if s.up && !(usesFilter e && saving s.saver) then
    (Fetcher.step baseHash torrentMaxQueueSize s.fetcher e).map (fun f => { s with fetcher := f })
  else none

def stop (s : System) (c : Saver.Call) : Option System :=
  if s.up then (s.saver.call (encode codec) s.fetcher c).map (fun saver => { s with saver := saver }) else none

def exit (s : System) : Option System :=
  if s.up then some ⟨false,remains s.fetcher,s.saver.abandon⟩ else none

end System

def step (s : System) : Event → Option System
  | .start opened => s.start codec opened
  | .fetch e => s.fetch baseHash torrentMaxQueueSize e
  | .stop c => s.stop codec c
  | .exit => s.exit

/-- Before the first life there are documents, perhaps, and a temporary file, perhaps, but no filter. -/
def installed (tmp : Option Bytes) (documents : List Bytes) : System :=
  ⟨false,{ newTorrentFetcher with collection := documents },none,tmp,.idle,none⟩

end Model

section Life
variable {baseHash : Bytes → UInt64} {torrentMaxQueueSize : ℕ} {f f' : TorrentFetcher} {e : Fetcher.Event}

variable (baseHash) in
/-- The filter with these additions. -/
def filterOf (added : List Bytes) : BloomFilter := (newBloomFilter (targetCount * 15)).addAll baseHash added

theorem filterOf_m (added : List Bytes) : (filterOf baseHash added).m ≠ 0 := by
  change targetCount * 15 ≠ 0
  decide

theorem filterOf_exists {added : List Bytes} {h : Bytes} (hadded : h ∈ added) :
    (filterOf baseHash added).doesExist baseHash h = some true := by
  apply (BloomFilter.doesExist_iff (filterOf_m added)).mpr
  intro loc hloc
  rw [filterOf,BloomFilter.addAll,Finset.mem_union,List.mem_toFinset]
  exact .inr (List.mem_flatMap.mpr ⟨h,hadded,hloc⟩)

theorem snoc_subset {A : Type} {xs ys : List A} {x : A} (hxs : xs ⊆ ys) (hx : x ∈ ys) : xs ++ [x] ⊆ ys :=
  List.append_subset.mpr ⟨hxs,List.cons_subset.mpr ⟨hx,List.nil_subset _⟩⟩

variable (baseHash) in
/-- The filter is that of the additions, and whatever is or may be added has a document. -/
structure Sane (f : TorrentFetcher) : Prop where
  filter : f.bloomFilter = filterOf baseHash f.added
  upserted : f.upserted ⊆ f.collection
  adding : f.adding ⊆ f.collection
  added : f.added ⊆ f.collection

variable (baseHash) in
/-- What a step of a sane fetcher comes to. -/
structure Advances (f f' : TorrentFetcher) : Prop where
  sane : Sane baseHash f'
  added : f.added <+: f'.added
  collection : f.collection ⊆ f'.collection

theorem Sane.advances (hf : Sane baseHash f) (h : Steps baseHash torrentMaxQueueSize f e f') : Advances baseHash f f' := by
  obtain ⟨hfilter,hupserted,hadding,hadded⟩ := hf
  cases h with
  | new h hnew =>
    obtain ⟨tasks,htasks,-⟩ := commit_eq torrentMaxQueueSize f h
    rw [htasks]
    exact ⟨⟨hfilter,hupserted,hadding,hadded⟩,List.prefix_rfl,List.Subset.refl _⟩
  | absent h q hq habsent =>
    obtain ⟨tasks,htasks,-⟩ := commit_eq torrentMaxQueueSize { f with uncheckedChan := q } h
    rw [htasks]
    exact ⟨⟨hfilter,hupserted,hadding,hadded⟩,List.prefix_rfl,List.Subset.refl _⟩
  | found h q hq hfound =>
    have hnew : f.adding ++ [h] ⊆ f.collection :=
      snoc_subset hadding hfound
    exact ⟨⟨hfilter,hupserted,hnew,hadded⟩,List.prefix_rfl,List.Subset.refl _⟩
  | failed i written collection hcollection =>
    exact ⟨⟨hfilter,List.Subset.trans hupserted hcollection,List.Subset.trans hadding hcollection,
      List.Subset.trans hadded hcollection⟩,List.prefix_rfl,hcollection⟩
  | upserted i h =>
    have hmore : f.collection ⊆ h :: f.collection := List.subset_cons_self _ _
    have hnew : f.upserted ++ [h] ⊆ h :: f.collection :=
      snoc_subset (List.Subset.trans hupserted hmore) List.mem_cons_self
    exact ⟨⟨hfilter,hnew,List.Subset.trans hadding hmore,List.Subset.trans hadded hmore⟩,List.prefix_rfl,hmore⟩
  | unpublished i =>
    have hless : f.upserted.eraseIdx i ⊆ f.collection := List.Subset.trans (List.eraseIdx_subset ..) hupserted
    exact ⟨⟨hfilter,hless,hadding,hadded⟩,List.prefix_rfl,List.Subset.refl _⟩
  | published i h hh =>
    have hless : f.upserted.eraseIdx i ⊆ f.collection := List.Subset.trans (List.eraseIdx_subset ..) hupserted
    have hnew : f.adding ++ [h] ⊆ f.collection :=
      snoc_subset hadding (hupserted hh)
    exact ⟨⟨hfilter,hless,hnew,hadded⟩,List.prefix_rfl,List.Subset.refl _⟩
  | added i h bloomFilter hh hadd =>
    have hless : f.adding.eraseIdx i ⊆ f.collection := List.Subset.trans (List.eraseIdx_subset ..) hadding
    have hnew : f.added ++ [h] ⊆ f.collection :=
      snoc_subset hadded (hadding hh)
    have hexact : bloomFilter = filterOf baseHash (f.added ++ [h]) := by
      rw [hfilter,BloomFilter.add_eq (filterOf_m f.added),filterOf,BloomFilter.addAll_addAll] at hadd
      exact (Option.some.inj hadd).symm
    exact ⟨⟨hexact,hupserted,hless,hnew⟩,List.prefix_append _ _,List.Subset.refl _⟩
  | _ => exact ⟨⟨hfilter,hupserted,hadding,hadded⟩,List.prefix_rfl,List.Subset.refl _⟩

/-- What the filter knows and the documents confirm is not taken in again. -/
theorem Sane.not_queued (hf : Sane baseHash f) {h : Bytes} (hadded : h ∈ f.added) (htasks : h ∉ f.tasks)
    (hstep : Steps baseHash torrentMaxQueueSize f e f') : h ∉ f'.tasks := by
  have hexist : f.bloomFilter.doesExist baseHash h = some true := by
    rw [hf.filter]
    exact filterOf_exists hadded
  cases hstep with
  | new x hnew =>
    obtain ⟨tasks,heq,hmem⟩ := commit_eq torrentMaxQueueSize f x
    rw [heq]
    intro hh
    rcases hmem h hh with hold | rfl
    · exact htasks hold
    · rw [hexist] at hnew
      cases hnew
  | absent x q hq habsent =>
    obtain ⟨tasks,heq,hmem⟩ := commit_eq torrentMaxQueueSize { f with uncheckedChan := q } x
    rw [heq]
    intro hh
    rcases hmem h hh with hold | rfl
    · exact htasks hold
    · exact habsent (hf.added hadded)
  | pulled torrent tasks hless => exact fun hh => htasks (hless hh)
  | _ => exact htasks

end Life

def Before (f g : TorrentFetcher) : Prop := f.added <+: g.added

instance before_refl : Std.Refl Before := ⟨fun _ => List.prefix_rfl⟩

instance before_trans : IsTrans TorrentFetcher Before := ⟨fun _ _ _ => List.IsPrefix.trans⟩

/-- A fetcher as it was saved: its filter is that of its additions, all of which have documents. -/
structure Fits (baseHash : Bytes → UInt64) (documents : List Bytes) (f : TorrentFetcher) : Prop where
  filter : f.bloomFilter = filterOf baseHash f.added
  added : f.added ⊆ documents

theorem Fits.mono {baseHash : Bytes → UInt64} {documents documents' : List Bytes} (h : documents ⊆ documents')
    (f : TorrentFetcher) (hf : Fits baseHash documents f) : Fits baseHash documents' f :=
  ⟨hf.filter,List.Subset.trans hf.added h⟩

theorem Sane.fits {baseHash : Bytes → UInt64} {f : TorrentFetcher} (hf : Sane baseHash f) :
    Fits baseHash f.collection f := ⟨hf.filter,hf.added⟩

/-- The file is whole, the additions in it are a front of those in memory, and a process that is
down has left nothing but what outlives it. -/
structure Consistent (baseHash : Bytes → UInt64) (codec : BitmapCodec) (s : System) : Prop where
  whole : s.saver.Whole (encode codec)
  values : s.saver.All (Fits baseHash s.fetcher.collection)
  live : s.up = true → Sane baseHash s.fetcher ∧ s.saver.Ordered Before s.fetcher
  down : s.up = false → s.fetcher = remains s.fetcher ∧ s.saver.stage = .idle

section Run
variable {baseHash : Bytes → UInt64} {codec : BitmapCodec} {torrentMaxQueueSize : ℕ} {s t : System}

theorem consistent_installed (tmp : Option Bytes) (documents : List Bytes) :
    Consistent baseHash codec (installed tmp documents) where
  whole := ⟨rfl,trivial⟩
  values := ⟨fun v hv => (Option.not_mem_none v hv).elim,fun v hv => (Option.not_mem_none v hv).elim⟩
  live := fun h => Bool.noConfusion h
  down := fun _ => ⟨rfl,rfl⟩

namespace Consistent

theorem durable_fits (hs : Consistent baseHash codec s) : s.durable ⊆ s.fetcher.collection := by
  unfold System.durable
  cases hstored : s.saver.stored with
  | none => exact List.nil_subset _
  | some v => exact (hs.values.stored v hstored).added

/-- A file that is in place is a saved filter, that of the additions last put in place. -/
theorem file_eq (hs : Consistent baseHash codec s) (hstored : s.saver.stored.isSome = true) :
    ∃ raw, s.saver.file = some raw ∧
      BloomFilter.loadBloomFilter codec raw = some (filterOf baseHash s.durable,[]) := by
  obtain ⟨v,hv⟩ := Option.isSome_iff_exists.mp hstored
  have hload : BloomFilter.loadBloomFilter codec (v.bloomFilter.save codec ++ []) = some (v.bloomFilter,[]) :=
    BloomFilter.loadBloomFilter_save v.bloomFilter []
  rw [List.append_nil] at hload
  refine ⟨encode codec v,by rw [hs.whole.file,hv]; rfl,?_⟩
  rw [encode,hload,System.durable,hv,(hs.values.stored v hv).filter]
  rfl

/-- Whatever happened before, the file is there with the additions last put in place, or none was. -/
theorem openFilter_eq (hs : Consistent baseHash codec s) :
    openFilter codec s.saver.file = some (filterOf baseHash s.durable) := by
  cases hstored : s.saver.stored with
  | none =>
    rw [hs.whole.file,System.durable,hstored]
    simp [openFilter,filterOf,newBloomFilter,BloomFilter.addAll]
  | some v =>
    obtain ⟨raw,hfile,hload⟩ := hs.file_eq (by rw [hstored]; rfl)
    rw [hfile,openFilter,hload]
    rfl

/-- The next life begins with the additions of the last one that was stopped as it should be. -/
theorem start_eq (hs : Consistent baseHash codec s) (hdown : s.up = false) :
    s.start codec true = some { s with
      up := true
      fetcher := { s.fetcher with bloomFilter := filterOf baseHash s.durable, added := s.durable } } := by
  unfold System.start
  rw [if_neg (by simp [hdown]),hs.openFilter_eq]

theorem start (hs : Consistent baseHash codec s) {opened : Bool} (h : s.start codec opened = some t) :
    Consistent baseHash codec t := by
  have hdown : s.up = false := by
    cases hup : s.up with
    | false => rfl
    | true => simp [System.start,hup] at h
  cases opened with
  | false =>
    simp only [System.start,hdown,Bool.false_eq_true,if_false,Option.some.injEq] at h
    exact h ▸ hs
  | true =>
    rw [hs.start_eq hdown] at h
    cases h
    obtain ⟨hremains,hidle⟩ := hs.down hdown
    have hupserted : s.fetcher.upserted = [] := congrArg TorrentFetcher.upserted hremains
    have hadding : s.fetcher.adding = [] := congrArg TorrentFetcher.adding hremains
    refine ⟨hs.whole,hs.values,fun _ => ⟨⟨rfl,?_,?_,hs.durable_fits⟩,?_,?_⟩,fun h => Bool.noConfusion h⟩
    · exact hupserted ▸ List.nil_subset _
    · exact hadding ▸ List.nil_subset _
    · intro v hv
      refine ⟨?_,?_⟩
      · change v.added <+: s.durable
        rw [System.durable,Option.mem_def.mp hv]
        exact List.prefix_rfl
      · intro w hw
        rw [hidle] at hw
        cases hw
    · intro w hw
      rw [hidle] at hw
      cases hw

theorem fetch_cases {e : Fetcher.Event} (hs : Consistent baseHash codec s)
    (h : s.fetch baseHash torrentMaxQueueSize e = some t) : s.up = true ∧ ∃ f,
      Steps baseHash torrentMaxQueueSize s.fetcher e f ∧ Advances baseHash s.fetcher f ∧ t = { s with fetcher := f } := by
  unfold System.fetch at h
  split at h
  · rename_i hup
    rw [Bool.and_eq_true] at hup
    obtain ⟨f,hf,rfl⟩ := Option.map_eq_some_iff.mp h
    have hsteps := steps_of_step hf
    exact ⟨hup.1,f,hsteps,(hs.live hup.1).1.advances hsteps,rfl⟩
  · cases h

theorem fetch {e : Fetcher.Event} (hs : Consistent baseHash codec s)
    (h : s.fetch baseHash torrentMaxQueueSize e = some t) : Consistent baseHash codec t := by
  obtain ⟨hup,f,-,hf,rfl⟩ := hs.fetch_cases h
  refine ⟨hs.whole,hs.values.mono (Fits.mono hf.collection),fun _ => ⟨hf.sane,(hs.live hup).2.later hf.added⟩,?_⟩
  intro hdown
  rw [hup] at hdown
  cases hdown

theorem stop_cases {c : Saver.Call} (hs : Consistent baseHash codec s) (h : s.stop codec c = some t) :
    s.up = true ∧ ∃ saver, saver.Whole (encode codec) ∧ Saver.Moved s.fetcher s.saver saver ∧
      s.saver.call (encode codec) s.fetcher c = some saver ∧ t = { s with saver := saver } := by
  unfold System.stop at h
  split at h
  · rename_i hup
    obtain ⟨saver,hsaver,rfl⟩ := Option.map_eq_some_iff.mp h
    obtain ⟨hwhole,hmoved⟩ := hs.whole.call hsaver
    exact ⟨hup,saver,hwhole,hmoved,hsaver,rfl⟩
  · cases h

theorem stop {c : Saver.Call} (hs : Consistent baseHash codec s) (h : s.stop codec c = some t) :
    Consistent baseHash codec t := by
  obtain ⟨hup,saver,hwhole,hmoved,-,rfl⟩ := hs.stop_cases h
  obtain ⟨hsane,hordered⟩ := hs.live hup
  refine ⟨hwhole,hs.values.moved hsane.fits hmoved,fun _ => ⟨hsane,hordered.moved hmoved⟩,?_⟩
  intro hdown
  rw [hup] at hdown
  cases hdown

theorem exit (hs : Consistent baseHash codec s) (h : s.exit = some t) : Consistent baseHash codec t := by
  unfold System.exit at h
  split at h
  · cases h
    refine ⟨hs.whole.abandon,⟨hs.values.stored,?_⟩,fun h => Bool.noConfusion h,fun _ => ⟨rfl,rfl⟩⟩
    intro v hv
    cases hv
  · cases h

theorem next {e : Event} (hs : Consistent baseHash codec s) (h : step baseHash codec torrentMaxQueueSize s e = some t) :
    Consistent baseHash codec t := by
  cases e with
  | start opened => exact hs.start h
  | fetch e => exact hs.fetch h
  | stop c => exact hs.stop h
  | exit => exact hs.exit h

theorem reach {guard : System → Event → Prop} (hs : Consistent baseHash codec s)
    (ht : Reach (step baseHash codec torrentMaxQueueSize) guard s t) : Consistent baseHash codec t :=
  ht.invariant hs (fun hi _ h => hi.next h)

/-- What is durable stays so: a stop that completes saves at least what was loaded. -/
theorem durable_next {e : Event} (hs : Consistent baseHash codec s)
    (h : step baseHash codec torrentMaxQueueSize s e = some t) : s.durable <+: t.durable := by
  cases e with
  | start opened =>
    simp only [step,System.start] at h
    split at h
    · cases h
    · split at h <;> cases h <;> exact List.prefix_rfl
  | fetch e =>
    obtain ⟨-,f,-,-,rfl⟩ := hs.fetch_cases h
    exact List.prefix_rfl
  | stop c =>
    obtain ⟨hup,saver,-,hmoved,-,rfl⟩ := hs.stop_cases h
    unfold System.durable
    cases hmoved with
    | begun hstored hvalue => rw [hstored]
    | kept hstored hvalue hopen => rw [hstored]
    | replaced saved hsaved hstored hvalue =>
      cases hold : s.saver.stored with
      | none => exact List.nil_prefix
      | some v =>
        rw [hstored]
        exact ((hs.live hup).2.stored v hold).2 saved hsaved
  | exit =>
    simp only [step,System.exit] at h
    split at h <;> cases h
    exact List.prefix_rfl

theorem durable_reach {guard : System → Event → Prop} (hs : Consistent baseHash codec s)
    (ht : Reach (step baseHash codec torrentMaxQueueSize) guard s t) : s.durable <+: t.durable := by
  induction ht with
  | start => exact List.prefix_rfl
  | next hreach _ h ih => exact ih.trans ((hs.reach hreach).durable_next h)

/-- In a life the durable additions are among those in memory. -/
theorem durable_added (hs : Consistent baseHash codec s) (hup : s.up = true) : s.durable <+: s.fetcher.added := by
  unfold System.durable
  cases hstored : s.saver.stored with
  | none => exact List.nil_prefix
  | some v => exact ((hs.live hup).2.stored v hstored).1

end Consistent

/-- The additions at the start of a stop, as the stop goes on in the same life. -/
structure Carried (baseHash : Bytes → UInt64) (codec : BitmapCodec) (added : List Bytes) (s : System) : Prop where
  consistent : Consistent baseHash codec s
  up : s.up = true
  memory : added <+: s.fetcher.added
  underway : ∀ v ∈ s.saver.stage.value, added <+: v.added
  done : s.saver.stage = .renamed → s.saver.stored.isSome = true ∧ added <+: s.durable

theorem Carried.next {added : List Bytes} {e : Event} (hs : Carried baseHash codec added s) (he : e ≠ .exit)
    (h : step baseHash codec torrentMaxQueueSize s e = some t) : Carried baseHash codec added t := by
  have ht := hs.consistent.next h
  cases e with
  | start opened => simp [step,System.start,hs.up] at h
  | fetch e =>
    obtain ⟨-,f,-,hf,rfl⟩ := hs.consistent.fetch_cases h
    exact ⟨ht,hs.up,hs.memory.trans hf.added,hs.underway,hs.done⟩
  | stop c =>
    obtain ⟨-,saver,-,hmoved,-,rfl⟩ := hs.consistent.stop_cases h
    cases hmoved with
    | begun hstored hvalue =>
      refine ⟨ht,hs.up,hs.memory,?_,?_⟩
      · intro v hv
        cases hvalue.symm.trans hv
        exact hs.memory
      · intro hdone
        rw [show saver.stage = .renamed from hdone] at hvalue
        cases hvalue
    | kept hstored hvalue hopen =>
      refine ⟨ht,hs.up,hs.memory,?_,fun hdone => absurd hdone hopen⟩
      intro v hv
      exact hs.underway v (hvalue.symm.trans hv)
    | replaced saved hsaved hstored hvalue =>
      refine ⟨ht,hs.up,hs.memory,?_,?_⟩
      · intro v hv
        cases hvalue.symm.trans hv
      · intro _
        rw [System.durable,hstored]
        exact ⟨rfl,hs.underway saved hsaved⟩
  | exit => exact absurd rfl he

/-- A stop that is left alone completes, and what was in memory is durable. -/
theorem reach_stopped (hup : s.up = true) (hidle : s.saver.stage = .idle) :
    ∃ t, Reach (step baseHash codec torrentMaxQueueSize) (fun _ e => e ≠ .exit) s t ∧ t.saver.stage = .renamed ∧
      t.up = true ∧ t.fetcher = s.fetcher ∧ t.durable = s.fetcher.added := by
  let calls : List Event := [.stop .create,.stop .save,.stop (.write (encode codec s.fetcher).length),.stop .finish,
    .stop .close,.stop .rename]
  have hguarded : Guarded (step baseHash codec torrentMaxQueueSize) (fun _ e => e ≠ .exit) s calls := by
    simp [calls,Guarded]
  have hrun : ∃ t, run (step baseHash codec torrentMaxQueueSize) s calls = some t ∧ t.saver.stage = .renamed ∧
      t.up = true ∧ t.fetcher = s.fetcher ∧ t.durable = s.fetcher.added := by
    simp [calls,run,step,System.stop,Saver.call,System.durable,hup,hidle]
  obtain ⟨t,ht,hdone⟩ := hrun
  exact ⟨t,.of_guarded calls ht hguarded,hdone⟩

end Run

section Sample

/-- The torrent [1] is found and added in the first life. -/
def firstLife : List Event :=
  [.start true,.fetch (.push [1]),.fetch (.pull (some [1])),.fetch (.update 0 .ok),.fetch (.publish 0 true),.fetch (.add 0)]

/-- What is left of it. -/
def oneDocument : TorrentFetcher := { newTorrentFetcher with collection := [[1]], published := [[1]] }

theorem reach_firstLife : ∃ s, Reach (step (fun _ => 0) plainCodec 100) (Free _ _) (installed none []) s ∧
    s.up = true ∧ s.saver.stage = .idle ∧ s.fetcher.added = [[1]] ∧ remains s.fetcher = oneDocument :=
  ⟨_,.of_run firstLife rfl,rfl,rfl,rfl,rfl⟩

/-- The first life has been stopped as it should be. -/
theorem reach_secondLife : ∃ s, Reach (step (fun _ => 0) plainCodec 100) (Free _ _) (installed none []) s ∧
    s.up = false ∧ s.saver.stage = .idle ∧ s.fetcher = oneDocument ∧ s.durable = [[1]] := by
  obtain ⟨s,hs,hup,hidle,hadded,hremains⟩ := reach_firstLife
  obtain ⟨t,ht,-,hup',hfetcher,hdurable⟩ := reach_stopped (s := s) hup hidle
  have hexit : step (fun _ => 0) plainCodec 100 t .exit = some ⟨false,remains t.fetcher,t.saver.abandon⟩ := by
    simp [step,System.exit,hup']
  exact ⟨_,.next (hs.trans (ht.mono (fun _ => trivial))) trivial hexit,rfl,rfl,by rw [hfetcher,hremains],
    hdurable.trans hadded⟩

/-- Two torrents are announced, and the filter seems to know both of them. -/
def secondLife : List Event :=
  [.start true,.fetch (.push [2]),.fetch (.check false),.fetch (.push [1]),.fetch (.check false)]

theorem run_secondLife {s : System} (hs : Consistent (fun _ => 0) plainCodec s) (hdown : s.up = false)
    (hidle : s.saver.stage = .idle) (hfetcher : s.fetcher = oneDocument) (hdurable : s.durable = [[1]]) :
    ∃ t, run (step (fun _ => 0) plainCodec 100) s secondLife = some t ∧ t.fetcher.tasks = [[2]] ∧
      t.fetcher.adding = [[1]] := by
  have hstart := hs.start_eq hdown
  have hone : (filterOf (fun _ => 0) [[1]]).doesExist (fun _ => 0) [1] = some true := filterOf_exists List.mem_cons_self
  have htwo : (filterOf (fun _ => 0) [[1]]).doesExist (fun _ => 0) [2] = some true := rfl
  simp [secondLife,run,hstart,hfetcher,hdurable,oneDocument,newTorrentFetcher,step,System.fetch,usesFilter,saving,hidle,
    Fetcher.step,TorrentFetcher.push,TorrentFetcher.check,TorrentFetcher.commit,hone,htwo]

end Sample

/-- After any life, however it ended, the fetcher starts again, and with exactly the additions that
were last put in place; and these only become more. -/
theorem restart_exact (baseHash : Bytes → UInt64) (codec : BitmapCodec) (torrentMaxQueueSize : ℕ) (tmp : Option Bytes)
    (documents : List Bytes) (s t : System)
    (hs : Reach (step baseHash codec torrentMaxQueueSize) (Free _ _) (installed tmp documents) s)
    (ht : Reach (step baseHash codec torrentMaxQueueSize) (Free _ _) s t) (hdown : t.up = false) :
    ∃ u, step baseHash codec torrentMaxQueueSize t (.start true) = some u ∧ u.up = true ∧
      u.fetcher.bloomFilter = (newBloomFilter (targetCount * 15)).addAll baseHash t.durable ∧ s.durable <+: t.durable ∧
      ∀ h ∈ s.durable, u.fetcher.bloomFilter.doesExist baseHash h = some true := by
  have hcs : Consistent baseHash codec s := (consistent_installed tmp documents).reach hs
  have hfront := hcs.durable_reach ht
  refine ⟨_,(hcs.reach ht).start_eq hdown,rfl,rfl,hfront,?_⟩
  intro h hh
  exact filterOf_exists (hfront.subset hh)

theorem secondLife_exact : ∃ s u, Reach (step (fun _ => 0) plainCodec 100) (Free _ _) (installed none []) s ∧
    step (fun _ => 0) plainCodec 100 s (.start true) = some u ∧ u.fetcher.bloomFilter.doesExist (fun _ => 0) [1] = some true := by
  obtain ⟨s,hs,hdown,-,-,hdurable⟩ := reach_secondLife
  obtain ⟨u,hu,-,-,-,hexists⟩ := restart_exact (fun _ => 0) plainCodec 100 none [] s s hs .start hdown
  exact ⟨s,u,hs,hu,hexists [1] (by simp [hdurable])⟩

/-- What had been added when a stop began is durable when it has completed: the file is a saved filter, and the
filter that is loaded from it has all of that. -/
theorem completed_stop_durable (baseHash : Bytes → UInt64) (codec : BitmapCodec) (torrentMaxQueueSize : ℕ)
    (tmp : Option Bytes) (documents : List Bytes) (s t : System)
    (hs : Reach (step baseHash codec torrentMaxQueueSize) (Free _ _) (installed tmp documents) s)
    (hup : s.up = true) (hidle : s.saver.stage = .idle)
    (ht : Reach (step baseHash codec torrentMaxQueueSize) (fun _ e => e ≠ .exit) s t)
    (hdone : t.saver.stage = .renamed) :
    s.fetcher.added <+: t.durable ∧ ∃ raw bloomFilter, t.saver.file = some raw ∧
      BloomFilter.loadBloomFilter codec raw = some (bloomFilter,[]) ∧
      bloomFilter = (newBloomFilter (targetCount * 15)).addAll baseHash t.durable ∧
      ∀ h ∈ s.fetcher.added, bloomFilter.doesExist baseHash h = some true := by
  have hstart : Carried baseHash codec s.fetcher.added s := by
    refine ⟨(consistent_installed tmp documents).reach hs,hup,List.prefix_rfl,?_,?_⟩
    · intro v hv
      rw [hidle] at hv
      cases hv
    · intro hrenamed
      rw [hidle] at hrenamed
      cases hrenamed
  have hcarried : Carried baseHash codec s.fetcher.added t := ht.invariant hstart (fun hi he h => hi.next he h)
  obtain ⟨hstored,hdurable⟩ := hcarried.done hdone
  obtain ⟨raw,hfile,hload⟩ := hcarried.consistent.file_eq hstored
  exact ⟨hdurable,raw,_,hfile,hload,rfl,fun h hh => filterOf_exists (hdurable.subset hh)⟩

theorem firstLife_durable : ∃ s t raw bloomFilter,
    Reach (step (fun _ => 0) plainCodec 100) (Free _ _) (installed none []) s ∧
    Reach (step (fun _ => 0) plainCodec 100) (fun _ e => e ≠ .exit) s t ∧ s.fetcher.added = [[1]] ∧
    s.fetcher.added <+: t.durable ∧ t.saver.file = some raw ∧
    BloomFilter.loadBloomFilter plainCodec raw = some (bloomFilter,[]) ∧
    bloomFilter.doesExist (fun _ => 0) [1] = some true := by
  obtain ⟨s,hs,hup,hidle,hadded,-⟩ := reach_firstLife
  obtain ⟨t,ht,hdone,-⟩ := reach_stopped (s := s) hup hidle
  obtain ⟨hdurable,raw,bloomFilter,hfile,hload,-,hexists⟩ :=
    completed_stop_durable (fun _ => 0) plainCodec 100 none [] s t hs hup hidle ht hdone
  exact ⟨s,t,raw,bloomFilter,hs,ht,hadded,hdurable,hfile,hload,hexists [1] (by simp [hadded])⟩

/-- A torrent whose addition is durable is not fetched again in any later life. -/
theorem durable_not_fetched_again (baseHash : Bytes → UInt64) (codec : BitmapCodec) (torrentMaxQueueSize : ℕ)
    (tmp : Option Bytes) (documents : List Bytes) (s t : System)
    (hs : Reach (step baseHash codec torrentMaxQueueSize) (Free _ _) (installed tmp documents) s)
    (hdown : s.up = false) (ht : Reach (step baseHash codec torrentMaxQueueSize) (Free _ _) s t) :
    ∀ h ∈ s.durable, h ∉ t.fetcher.tasks := by
  intro h hdurable
  have hcs : Consistent baseHash codec s := (consistent_installed tmp documents).reach hs
  induction ht with
  | start =>
    have htasks : s.fetcher.tasks = [] := congrArg TorrentFetcher.tasks (hcs.down hdown).1
    rw [htasks]
    exact List.not_mem_nil
  | @next u v e hu _ hstep ih =>
    have hcu := hcs.reach hu
    cases e with
    | start opened =>
      simp only [step,System.start] at hstep
      split at hstep
      · cases hstep
      · split at hstep <;> cases hstep <;> exact ih
    | fetch e =>
      obtain ⟨hup,f,hsteps,-,rfl⟩ := hcu.fetch_cases hstep
      have hadded := (hcu.durable_added hup).subset ((hcs.durable_reach hu).subset hdurable)
      exact (hcu.live hup).1.not_queued hadded ih hsteps
    | stop c =>
      obtain ⟨-,saver,-,-,-,rfl⟩ := hcu.stop_cases hstep
      exact ih
    | exit =>
      simp only [step,System.exit] at hstep
      split at hstep <;> cases hstep
      exact List.not_mem_nil

/-- The torrent without a document is fetched, and the other one is not. -/
theorem secondLife_not_fetched_again : ∃ s t,
    Reach (step (fun _ => 0) plainCodec 100) (Free _ _) (installed none []) s ∧ s.up = false ∧ s.durable = [[1]] ∧
    run (step (fun _ => 0) plainCodec 100) s secondLife = some t ∧ t.fetcher.tasks = [[2]] ∧ t.fetcher.adding = [[1]] ∧
    [1] ∉ t.fetcher.tasks := by
  obtain ⟨s,hs,hdown,hidle,hfetcher,hdurable⟩ := reach_secondLife
  obtain ⟨t,ht,htasks,hadding⟩ := run_secondLife ((consistent_installed none []).reach hs) hdown hidle hfetcher hdurable
  exact ⟨s,t,hs,hdown,hdurable,ht,htasks,hadding,
    durable_not_fetched_again (fun _ => 0) plainCodec 100 none [] s t hs hdown (.of_run secondLife ht) [1]
      (by simp [hdurable])⟩

end DhtOcean.Persistence
