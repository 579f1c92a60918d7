import DhtOcean.Bloom.Filter

/-! # What enters the bloom filter of the fetcher

A torrent is added after it was published, or when the check of an announce that
the filter seems to know finds its document. The document is written before the
torrent is published, so the second kind of evidence is weaker than the first.
-/
namespace DhtOcean.Fetcher
open Foundation Bloom

def targetCount : UInt64 := 1024 * 1024 * 100

/-- Requests are known by their info hash, and so are documents and messages. The calls of
`handleTorrent` stand before the upsert, before the publication, or before the addition, where
the check of an announce may stand too. `published` and `added` record what happened. -/
structure TorrentFetcher where
  bloomFilter : BloomFilter
  uncheckedChan : List Bytes
  tasks : List Bytes
  collection : List Bytes
  handling : List Bytes
  upserted : List Bytes
  adding : List Bytes
  published : List Bytes
  added : List Bytes

/-- A failed write may have reached the collection all the same. -/
inductive WriteResult
  | ok
  | failed (written : Bool)
  deriving DecidableEq, Repr

def newTorrentFetcher : TorrentFetcher := ⟨newBloomFilter (targetCount * 15),[],[],[],[],[],[],[],[]⟩

inductive Event
  | push (infoHash : Bytes)
  /-- The next unchecked request is looked up; the lookup itself may fail. -/
  | check (failed : Bool)
  /-- A worker takes the next task and gets a torrent with this hash for it, or none. -/
  | pull (torrent : Option Bytes)
  | update (i : ℕ) (result : WriteResult)
  | publish (i : ℕ) (ok : Bool)
  | add (i : ℕ)
  deriving DecidableEq

section Model
variable (baseHash : Bytes → UInt64) (torrentMaxQueueSize : ℕ)

namespace TorrentFetcher

/-- A full queue drops the request. -/
def commit (f : TorrentFetcher) (infoHash : Bytes) : TorrentFetcher :=
  if torrentMaxQueueSize ≤ f.tasks.length then f else { f with tasks := f.tasks ++ [infoHash] }

def push (f : TorrentFetcher) (infoHash : Bytes) : Option TorrentFetcher := do
  let exist ← f.bloomFilter.doesExist baseHash infoHash
  if exist then
    if f.uncheckedChan.length < 10000 then some { f with uncheckedChan := f.uncheckedChan ++ [infoHash] } else none
  else some (f.commit torrentMaxQueueSize infoHash)

/-- One round of `checkExistLoop`, up to the addition. -/
def check (f : TorrentFetcher) (failed : Bool) : Option TorrentFetcher :=
  match f.uncheckedChan with
  | [] => none
  | infoHash :: rest =>
    let f := { f with uncheckedChan := rest }
    if failed then some f
    else if infoHash ∈ f.collection then some { f with adding := f.adding ++ [infoHash] }
    else some (f.commit torrentMaxQueueSize infoHash)

/-- `pullTorrent` up to `handleTorrent`. -/
def pull (f : TorrentFetcher) (torrent : Option Bytes) : Option TorrentFetcher :=
  match f.tasks with
  | [] => none
  | _ :: tasks => some { f with tasks := tasks, handling := f.handling ++ torrent.toList }

def update (f : TorrentFetcher) (i : ℕ) (result : WriteResult) : Option TorrentFetcher := do
  let infoHash ← f.handling[i]?
  let f := { f with handling := f.handling.eraseIdx i }
  match result with
  | .ok => return { f with collection := infoHash :: f.collection, upserted := f.upserted ++ [infoHash] }
  | .failed written => return { f with collection := if written then infoHash :: f.collection else f.collection }

/-- A message that cannot be marshalled or published ends the call. -/
def publish (f : TorrentFetcher) (i : ℕ) (ok : Bool) : Option TorrentFetcher := do
  let infoHash ← f.upserted[i]?
  let f := { f with upserted := f.upserted.eraseIdx i }
  if ok then return { f with published := f.published ++ [infoHash], adding := f.adding ++ [infoHash] }
  else return f

def add (f : TorrentFetcher) (i : ℕ) : Option TorrentFetcher := do
  let infoHash ← f.adding[i]?
  let bloomFilter ← f.bloomFilter.add baseHash infoHash
  return { f with bloomFilter := bloomFilter, adding := f.adding.eraseIdx i, added := f.added ++ [infoHash] }

end TorrentFetcher

def step (f : TorrentFetcher) : Event → Option TorrentFetcher
  | .push infoHash => f.push baseHash torrentMaxQueueSize infoHash
  | .check failed => f.check torrentMaxQueueSize failed
  | .pull torrent => f.pull torrent
  | .update i result => f.update i result
  | .publish i ok => f.publish i ok
  | .add i => f.add baseHash i

/-- A request that the filter seems to know is for a torrent that was published. -/
def KnownPublished (f : TorrentFetcher) : Event → Prop
  | .push infoHash => f.bloomFilter.doesExist baseHash infoHash = some true → infoHash ∈ f.published
  | _ => True

/-- A document that a check finds is that of a torrent that was published. -/
def FoundPublished (f : TorrentFetcher) : Event → Prop
  | .check false => ∀ infoHash ∈ f.uncheckedChan.head?, infoHash ∈ f.collection → infoHash ∈ f.published
  | _ => True

end Model

/-- Whatever was added to the filter had been published. -/
def AddedPublished (f : TorrentFetcher) : Prop := ∀ infoHash ∈ f.added, infoHash ∈ f.published

/-- Whatever is about to be added has been published already. -/
structure Announced (f : TorrentFetcher) : Prop where
  filter : f.bloomFilter.m ≠ 0
  adding : ∀ infoHash ∈ f.adding, infoHash ∈ f.published
  added : AddedPublished f

/-- Taking a request in or dropping it changes the tasks alone. -/
theorem commit_eq (torrentMaxQueueSize : ℕ) (f : TorrentFetcher) (h : Bytes) :
    ∃ tasks, f.commit torrentMaxQueueSize h = { f with tasks := tasks } ∧ ∀ x ∈ tasks, x ∈ f.tasks ∨ x = h := by
  unfold TorrentFetcher.commit
  split
  · exact ⟨f.tasks,rfl,fun x hx => .inl hx⟩
  · refine ⟨f.tasks ++ [h],rfl,?_⟩
    intro x hx
    rwa [List.mem_append,List.mem_singleton] at hx

section Steps
variable (baseHash : Bytes → UInt64) (torrentMaxQueueSize : ℕ)

/-- Everything that a step of the fetcher can do. -/
inductive Steps (f : TorrentFetcher) : Event → TorrentFetcher → Prop
  | known (h : Bytes) (hknown : f.bloomFilter.doesExist baseHash h = some true) :
      Steps f (.push h) { f with uncheckedChan := f.uncheckedChan ++ [h] }
  | new (h : Bytes) (hnew : f.bloomFilter.doesExist baseHash h = some false) :
      Steps f (.push h) (f.commit torrentMaxQueueSize h)
  | unanswered (h : Bytes) (q : List Bytes) (hq : f.uncheckedChan = h :: q) :
      Steps f (.check true) { f with uncheckedChan := q }
  | absent (h : Bytes) (q : List Bytes) (hq : f.uncheckedChan = h :: q) (habsent : h ∉ f.collection) :
      Steps f (.check false) ({ f with uncheckedChan := q }.commit torrentMaxQueueSize h)
  | found (h : Bytes) (q : List Bytes) (hq : f.uncheckedChan = h :: q) (hfound : h ∈ f.collection) :
      Steps f (.check false) { f with uncheckedChan := q, adding := f.adding ++ [h] }
  | pulled (torrent : Option Bytes) (tasks : List Bytes) (htasks : tasks ⊆ f.tasks) :
      Steps f (.pull torrent) { f with tasks := tasks, handling := f.handling ++ torrent.toList }
  | failed (i : ℕ) (written : Bool) (collection : List Bytes) (hcollection : f.collection ⊆ collection) :
      Steps f (.update i (.failed written)) { f with handling := f.handling.eraseIdx i, collection := collection }
  | upserted (i : ℕ) (h : Bytes) :
      Steps f (.update i .ok)
        { f with handling := f.handling.eraseIdx i, collection := h :: f.collection, upserted := f.upserted ++ [h] }
  | unpublished (i : ℕ) : Steps f (.publish i false) { f with upserted := f.upserted.eraseIdx i }
  | published (i : ℕ) (h : Bytes) (hh : h ∈ f.upserted) :
      Steps f (.publish i true)
        { f with upserted := f.upserted.eraseIdx i, published := f.published ++ [h], adding := f.adding ++ [h] }
  | added (i : ℕ) (h : Bytes) (bloomFilter : BloomFilter) (hh : h ∈ f.adding)
      (hadd : f.bloomFilter.add baseHash h = some bloomFilter) :
      Steps f (.add i) { f with bloomFilter := bloomFilter, adding := f.adding.eraseIdx i, added := f.added ++ [h] }

end Steps

variable {baseHash : Bytes → UInt64} {torrentMaxQueueSize : ℕ}

theorem steps_of_step {f f' : TorrentFetcher} {e : Event} (h : step baseHash torrentMaxQueueSize f e = some f') :
    Steps baseHash torrentMaxQueueSize f e f' := by
  cases e with
  | push infoHash =>
    obtain ⟨exist,hexist,h⟩ := Option.bind_eq_some_iff.mp h
    cases exist with
    | false =>
      cases h
      exact .new infoHash hexist
    | true =>
      simp only [if_true,Option.ite_none_right_eq_some,Option.some.injEq] at h
      obtain ⟨-,rfl⟩ := h
      exact .known infoHash hexist
  | check failed =>
    simp only [step,TorrentFetcher.check] at h
    split at h
    · cases h
    · rename_i infoHash rest hq
      cases failed with
      | true =>
        cases h
        exact .unanswered infoHash rest hq
      | false =>
        simp only [Bool.false_eq_true,if_false] at h
        split at h
        · cases h
          exact .found infoHash rest hq ‹_›
        · cases h
          exact .absent infoHash rest hq ‹_›
  | pull torrent =>
    simp only [step,TorrentFetcher.pull] at h
    split at h
    · cases h
    · rename_i tasks htasks
      cases h
      exact .pulled torrent tasks (htasks ▸ List.subset_cons_self _ _)
  | update i result =>
    obtain ⟨infoHash,hi,h⟩ := Option.bind_eq_some_iff.mp h
    cases result with
    | ok =>
      cases h
      exact .upserted i infoHash
    | failed written =>
      cases h
      apply Steps.failed
      cases written with
      | false => exact List.Subset.refl _
      | true => exact List.subset_cons_self _ _
  | publish i ok =>
    obtain ⟨infoHash,hi,h⟩ := Option.bind_eq_some_iff.mp h
    cases ok with
    | false =>
      cases h
      exact .unpublished i
    | true =>
      cases h
      exact .published i infoHash (List.mem_of_getElem? hi)
  | add i =>
    obtain ⟨infoHash,hi,h⟩ := Option.bind_eq_some_iff.mp h
    obtain ⟨bloomFilter,hadd,h⟩ := Option.bind_eq_some_iff.mp h
    cases h
    exact .added i infoHash bloomFilter (List.mem_of_getElem? hi) hadd

section Announced
variable {f f' : TorrentFetcher} {e : Event}

theorem Announced.commit (hf : Announced f) (infoHash : Bytes) : Announced (f.commit torrentMaxQueueSize infoHash) := by
  obtain ⟨tasks,htasks,-⟩ := commit_eq torrentMaxQueueSize f infoHash
  rw [htasks]
  exact ⟨hf.filter,hf.adding,hf.added⟩

theorem Announced.next (hf : Announced f) (hg : FoundPublished f e) (h : Steps baseHash torrentMaxQueueSize f e f') :
    Announced f' := by
  cases h with
  | new h hnew => exact hf.commit h
  | absent h q hq habsent =>
    have hrest : Announced { f with uncheckedChan := q } := ⟨hf.filter,hf.adding,hf.added⟩
    exact hrest.commit h
  | found h q hq hfound =>
    have hpublished : h ∈ f.published := hg h (by rw [hq]; rfl) hfound
    exact ⟨hf.filter,List.forall_mem_append.mpr ⟨hf.adding,List.forall_mem_singleton.mpr hpublished⟩,hf.added⟩
  | published i h hh =>
    have hkeep : ∀ x ∈ f.published, x ∈ f.published ++ [h] := fun x hx => List.mem_append_left _ hx
    refine ⟨hf.filter,?_,fun x hx => hkeep x (hf.added x hx)⟩
    exact List.forall_mem_append.mpr ⟨fun x hx => hkeep x (hf.adding x hx),fun x hx => List.mem_append_right _ hx⟩
  | added i h bloomFilter hh hadd =>
    rw [BloomFilter.add_eq hf.filter] at hadd
    cases hadd
    exact ⟨hf.filter,fun x hx => hf.adding x (List.mem_of_mem_eraseIdx hx),
      List.forall_mem_append.mpr ⟨hf.added,List.forall_mem_singleton.mpr (hf.adding h hh)⟩⟩
  | _ => exact ⟨hf.filter,hf.adding,hf.added⟩

end Announced

section Unchecked
variable {f f' : TorrentFetcher} {e : Event}

/-- The requests that are to be checked are for torrents that were published. -/
def UncheckedPublished (f : TorrentFetcher) : Prop := ∀ infoHash ∈ f.uncheckedChan, infoHash ∈ f.published

theorem UncheckedPublished.tail (hf : UncheckedPublished f) {h : Bytes} {q : List Bytes} (hq : f.uncheckedChan = h :: q) :
    ∀ x ∈ q, x ∈ f.published :=
  fun x hx => hf x (hq ▸ List.mem_cons_of_mem _ hx)

/-- A request comes to the check if the filter knows it. The other steps leave the queue alone or shorten it, and
take back no publication. -/
theorem UncheckedPublished.next (hf : UncheckedPublished f) (hg : KnownPublished baseHash f e)
    (h : Steps baseHash torrentMaxQueueSize f e f') : UncheckedPublished f' := by
  cases h with
  | known h hknown => exact List.forall_mem_append.mpr ⟨hf,List.forall_mem_singleton.mpr (hg hknown)⟩
  | new h hnew =>
    obtain ⟨tasks,htasks,-⟩ := commit_eq torrentMaxQueueSize f h
    rw [htasks]
    exact hf
  | unanswered h q hq => exact hf.tail hq
  | absent h q hq habsent =>
    obtain ⟨tasks,htasks,-⟩ := commit_eq torrentMaxQueueSize { f with uncheckedChan := q } h
    rw [htasks]
    exact hf.tail hq
  | found h q hq hfound => exact hf.tail hq
  | published i h hh => exact fun x hx => List.mem_append_left _ (hf x hx)
  | _ => exact hf

theorem UncheckedPublished.found (hf : UncheckedPublished f) : FoundPublished f e := by
  unfold FoundPublished
  split
  · intro infoHash hhead _
    exact hf infoHash (List.mem_of_mem_head? hhead)
  · trivial

/-- If the filter knows only what was published, a check finds nothing else. -/
theorem found_of_known (hf : Reach (step baseHash torrentMaxQueueSize) (KnownPublished baseHash) newTorrentFetcher f) :
    UncheckedPublished f ∧ Reach (step baseHash torrentMaxQueueSize) FoundPublished newTorrentFetcher f := by
  induction hf with
  | start => exact ⟨nofun,.start⟩
  | next _ hg h ih => exact ⟨ih.1.next hg (steps_of_step h),.next ih.2 ih.1.found h⟩

end Unchecked

theorem announced_newTorrentFetcher : Announced newTorrentFetcher where
  filter := by decide
  adding := by simp [newTorrentFetcher]
  added := by simp [AddedPublished,newTorrentFetcher]

section FalsePositive
variable {f : TorrentFetcher} {infoHash : Bytes}

/-- Lookups may fail one after the other. -/
theorem reach_unchecked (q : List Bytes) {rest : List Bytes} (h : f.uncheckedChan = q ++ rest) :
    Reach (step baseHash torrentMaxQueueSize) (Free _ _) f { f with uncheckedChan := rest } := by
  induction q generalizing f with
  | nil =>
    rw [List.nil_append] at h
    rw [← h]
    exact .start
  | cons x q ih =>
    have hstep : step baseHash torrentMaxQueueSize f (.check true) = some { f with uncheckedChan := q ++ rest } := by
      simp [step,TorrentFetcher.check,h]
    exact (Reach.next .start trivial hstep).trans (ih rfl)

/-- No peer has to deliver a torrent. -/
theorem reach_idle (tasks : List Bytes) (h : f.tasks = tasks) :
    Reach (step baseHash torrentMaxQueueSize) (Free _ _) f { f with tasks := [] } := by
  induction tasks generalizing f with
  | nil =>
    rw [← h]
    exact .start
  | cons x tasks ih =>
    have hstep : step baseHash torrentMaxQueueSize f (.pull none) = some { f with tasks := tasks } := by
      simp [step,TorrentFetcher.pull,h]
    exact (Reach.next .start trivial hstep).trans (ih rfl)

theorem check_found (baseHash : Bytes → UInt64) (torrentMaxQueueSize : ℕ) {rest : List Bytes}
    (hq : f.uncheckedChan = infoHash :: rest) (hc : infoHash ∈ f.collection) :
    step baseHash torrentMaxQueueSize f (.check false) =
      some { f with uncheckedChan := rest, adding := f.adding ++ [infoHash] } := by
  simp [step,TorrentFetcher.check,hq,hc]

/-- A check that finds the document of an unpublished torrent ends in its addition. -/
theorem reach_added_unpublished {f' : TorrentFetcher} {rest : List Bytes} (hm : f.bloomFilter.m ≠ 0)
    (hq : f.uncheckedChan = infoHash :: rest) (hc : infoHash ∈ f.collection) (hp : infoHash ∉ f.published)
    (h : step baseHash torrentMaxQueueSize f (.check false) = some f') :
    ∃ g, Reach (step baseHash torrentMaxQueueSize) (Free _ _) f' g ∧ ¬ AddedPublished g := by
  obtain rfl := Option.some.inj ((check_found baseHash torrentMaxQueueSize hq hc).symm.trans h)
  have hadd : f.bloomFilter.add baseHash infoHash = _ := BloomFilter.add_eq hm
  have hstep : ∃ g, step baseHash torrentMaxQueueSize { f with uncheckedChan := rest, adding := f.adding ++ [infoHash] }
      (.add f.adding.length) = some g ∧ g.added = f.added ++ [infoHash] ∧ g.published = f.published := by
    simp [step,TorrentFetcher.add,hadd]
  obtain ⟨g,hg,hadded,hpublished⟩ := hstep
  refine ⟨g,.next .start trivial hg,?_⟩
  intro hall
  have := hall infoHash (by simp [hadded])
  exact hp (hpublished ▸ this)

/-- A torrent without a document gets one when its publication fails. -/
theorem reach_document (hmax : 1 ≤ torrentMaxQueueSize) (hq : f.uncheckedChan = [infoHash]) (ht : f.tasks = [])
    (hc : infoHash ∉ f.collection) (hexist : f.bloomFilter.doesExist baseHash infoHash = some true) :
    Reach (step baseHash torrentMaxQueueSize) (Free _ _) f { f with collection := infoHash :: f.collection } := by
  have hmax' : torrentMaxQueueSize ≠ 0 := Nat.ne_of_gt hmax
  have herase : ∀ l : List Bytes, (l ++ [infoHash]).eraseIdx l.length = l := by
    intro l
    rw [List.eraseIdx_append_of_length_le (Nat.le_refl _),Nat.sub_self]
    exact List.append_nil l
  apply Reach.of_run [.check false,.pull (some infoHash),.update f.handling.length .ok,
    .publish f.upserted.length false,.push infoHash]
  simp [run,step,TorrentFetcher.check,TorrentFetcher.commit,TorrentFetcher.pull,TorrentFetcher.update,
    TorrentFetcher.publish,TorrentFetcher.push,hq,ht,hc,hexist,hmax',herase]

/-- A false positive of the filter can put a torrent into it that nobody has heard of. -/
theorem reach_of_falsePositive {f' : TorrentFetcher} (hmax : 1 ≤ torrentMaxQueueSize) (hm : f.bloomFilter.m ≠ 0)
    (hexist : f.bloomFilter.doesExist baseHash infoHash = some true) (hp : infoHash ∉ f.published)
    (h : step baseHash torrentMaxQueueSize f (.push infoHash) = some f') :
    ∃ g, Reach (step baseHash torrentMaxQueueSize) (Free _ _) f' g ∧ ¬ AddedPublished g := by
  simp only [step,TorrentFetcher.push,hexist,Option.bind_eq_bind,Option.bind_some,if_true,
    Option.ite_none_right_eq_some,Option.some.injEq] at h
  obtain ⟨-,rfl⟩ := h
  -- Everything before the request is got out of the way first.
  have hfront : Reach (step baseHash torrentMaxQueueSize) (Free _ _)
      { f with uncheckedChan := f.uncheckedChan ++ [infoHash] } { f with uncheckedChan := [infoHash], tasks := [] } :=
    (reach_unchecked f.uncheckedChan rfl).trans (reach_idle (f := { f with uncheckedChan := [infoHash] }) f.tasks rfl)
  -- In either case the check finds a document of the torrent.
  have hfound : ∃ g : TorrentFetcher, Reach (step baseHash torrentMaxQueueSize) (Free _ _)
      { f with uncheckedChan := f.uncheckedChan ++ [infoHash] } g ∧ g.bloomFilter.m ≠ 0 ∧
      g.uncheckedChan = [infoHash] ∧ infoHash ∈ g.collection ∧ infoHash ∉ g.published := by
    by_cases hc : infoHash ∈ f.collection
    · exact ⟨_,hfront,hm,rfl,hc,hp⟩
    · have hdoc := reach_document (f := { f with uncheckedChan := [infoHash], tasks := [] }) hmax rfl rfl hc hexist
      exact ⟨_,hfront.trans hdoc,hm,rfl,List.mem_cons_self,hp⟩
  obtain ⟨g,hg,hm,hq,hc,hp⟩ := hfound
  have hcheck := check_found baseHash torrentMaxQueueSize hq hc
  obtain ⟨g',hg',hbad⟩ := reach_added_unpublished hm hq hc hp hcheck
  exact ⟨g',(hg.next trivial hcheck).trans hg',hbad⟩

end FalsePositive

theorem announced_reach {f : TorrentFetcher}
    (hf : Reach (step baseHash torrentMaxQueueSize) FoundPublished newTorrentFetcher f) : Announced f :=
  hf.invariant (P := Announced) announced_newTorrentFetcher (fun hi hg h => hi.next hg (steps_of_step h))

/-- As long as checks find only what was published, nothing else is added to the filter, and the first check that
finds something else opens a run in which it is. As long as the filter knows only what was published, checks find
nothing else; and the first request that breaks this opens such a run as well. -/
theorem added_published_while_known (baseHash : Bytes → UInt64) (torrentMaxQueueSize : ℕ) :
    (∀ f, Reach (step baseHash torrentMaxQueueSize) FoundPublished newTorrentFetcher f → AddedPublished f) ∧
    (∀ f f', Reach (step baseHash torrentMaxQueueSize) FoundPublished newTorrentFetcher f →
      ¬ FoundPublished f (.check false) → step baseHash torrentMaxQueueSize f (.check false) = some f' →
      ∃ g, Reach (step baseHash torrentMaxQueueSize) (Free _ _) f' g ∧ ¬ AddedPublished g) ∧
    (∀ f, Reach (step baseHash torrentMaxQueueSize) (KnownPublished baseHash) newTorrentFetcher f →
      Reach (step baseHash torrentMaxQueueSize) FoundPublished newTorrentFetcher f ∧ AddedPublished f) ∧
    (∀ f f' infoHash, 1 ≤ torrentMaxQueueSize →
      Reach (step baseHash torrentMaxQueueSize) (KnownPublished baseHash) newTorrentFetcher f →
      ¬ KnownPublished baseHash f (.push infoHash) →
      step baseHash torrentMaxQueueSize f (.push infoHash) = some f' →
      ∃ g, Reach (step baseHash torrentMaxQueueSize) (Free _ _) f' g ∧ ¬ AddedPublished g) := by
  refine ⟨fun f hf => (announced_reach hf).added,?_,?_,?_⟩
  · intro f f' hf hg h
    simp only [FoundPublished,Classical.not_forall] at hg
    obtain ⟨infoHash,hhead,hc,hp⟩ := hg
    obtain ⟨rest,hq⟩ := List.head?_eq_some_iff.mp hhead
    exact reach_added_unpublished (announced_reach hf).filter hq hc hp h
  · intro f hf
    have hfound := (found_of_known hf).2
    exact ⟨hfound,(announced_reach hfound).added⟩
  · intro f f' infoHash hmax hf hg h
    obtain ⟨hexist,hp⟩ := Classical.not_imp.mp hg
    exact reach_of_falsePositive hmax (announced_reach (found_of_known hf).2).filter hexist hp h

/-- The torrent [1] is published and added. The publication of [2] fails, and its next request meets a
filter in which all locations are the same. -/
def collidingRun : List Event :=
  [.push [1],.pull (some [1]),.update 0 .ok,.publish 0 true,.add 0,
    .push [2],.check false,.pull (some [2]),.update 0 .ok,.publish 0 false,
    .push [2],.check false,.add 0]

theorem collidingRun_adds_unpublished : ∃ f, run (step (fun _ => 0) 100) newTorrentFetcher collidingRun = some f ∧
    f.added = [[1],[2]] ∧ f.published = [[1]] ∧
    Reach (step (fun _ => 0) 100) (Free _ _) newTorrentFetcher f ∧ ¬ AddedPublished f := by
  refine ⟨_,rfl,rfl,rfl,.of_run collidingRun rfl,?_⟩
  intro h
  exact absurd (h [2] (by decide)) (by decide)

end DhtOcean.Fetcher
