import DhtOcean.Cache.Blocking
import DhtOcean.Foundation.BigEndian
import DhtOcean.Tracker.Connection

/-! # Scrape results and the calls they belong to

A `Scrape` call that has found the connection made draws a transaction ID, queues its
hashes under it in a blocking cache and sends a request. Whatever datagram a receive
loop reads later takes the hashes of its transaction ID out of the cache and pairs them
with its records by position. The calls and loops are those of `Tracker.Connection`;
what a loop finds in its datagram decides which of its steps it takes. Requests are
numbered in their order, so that a result can name its own.
-/
namespace DhtOcean.Scrape
open Foundation Cache

def actionConnect : UInt32 := 0x00
def actionScrape : UInt32 := 0x02

structure TrackerResponseHeader where
  action : UInt32
  transactionID : UInt32
  deriving DecidableEq, Repr

structure ScrapeResponse where
  seeders : UInt32
  completed : UInt32
  leechers : UInt32
  deriving DecidableEq, Repr

structure ScrapeResult extends ScrapeResponse where
  infoHash : Bytes
  deriving DecidableEq, Repr

def word (b : Bytes) (i : ℕ) : UInt32 := UInt32.ofNat (beValue ((b.drop i).take 4))

def TrackerResponseHeader.decode (b : Bytes) : TrackerResponseHeader := ⟨word b 0,word b 4⟩

def ScrapeResponse.decode (b : Bytes) : ScrapeResponse := ⟨word b 0,word b 4,word b 8⟩

/-- The header of a scrape request and the hashes. -/
def scrapeRequest (connectionID : UInt64) (transactionID : UInt32) (infoHashes : List Bytes) : Bytes :=
  beBytes 8 connectionID.toNat ++ beBytes 4 actionScrape.toNat ++ beBytes 4 transactionID.toNat ++
    infoHashes.flatMap (·.take 20)

structure Call where
  transactionID : UInt32
  infoHashes : List Bytes
  request : Bytes
  deriving DecidableEq, Repr

/-- What a call puts into the queue, with the number of the call. -/
structure Ticket where
  call : ℕ
  infoHashes : List Bytes
  deriving DecidableEq, Repr

/-- The results that a loop has read from a datagram for the hashes of a call. -/
structure Answer where
  loop : ℕ
  call : ℕ
  datagram : Bytes
  results : List ScrapeResult
  deriving DecidableEq, Repr

/-- `starting` are the calls that have built their request and wait for a token, `sending` the answers
whose loop waits at the channel `result`, and `results` what has been received from it. -/
structure UDPTracker (ι : Type) where
  link : Tracker.Connection.UDPTracker ι
  scrapeQueue : Shared UInt32 Ticket
  starting : List (UInt32 × Ticket)
  calls : List Call
  sending : List Answer
  results : List Answer

variable {ι : Type}

def newUDPTracker (queueTTL queueSize : ℕ) : UDPTracker ι :=
  ⟨Tracker.Connection.newUDPTracker,newShared queueTTL queueSize,[],[],[],[]⟩

section Machine
variable [DecidableEq ι]

namespace UDPTracker

def underWay (t : UDPTracker ι) : List (UInt32 × Ticket) := t.starting ++ t.scrapeQueue.pending

/-- A step of the calls and loops alone. -/
def linkTurn (t : UDPTracker ι) (e : Tracker.Connection.Event ι) : Option (UDPTracker ι) :=
  (Tracker.Connection.step t.link e).map fun link => { t with link := link }

/-- `infoHash[:20]` of a shorter hash panics. The request is written some time later; as anything may
arrive at any time, only its place in the queue matters here. -/
def scrape (t : UDPTracker ι) (i : ι) (transactionID : UInt32) (infoHashes : List Bytes) : Option (UDPTracker ι) :=
  if ∀ h ∈ infoHashes, 20 ≤ h.length then
    (t.linkTurn (.request i)).map fun t' =>
      { t' with
        starting := t.starting ++ [(transactionID,⟨t.calls.length,infoHashes⟩)]
        calls := t.calls ++
          [⟨transactionID,infoHashes,scrapeRequest t.link.connectionID transactionID infoHashes⟩] }
  else t.linkTurn (.panic i)

/-- The first half of `t.scrapeQueue.Set`. -/
def push (t : UDPTracker ι) (i : ℕ) : Option (UDPTracker ι) := do
  let (transactionID,ticket) ← t.starting[i]?
  let queue ← t.scrapeQueue.turn (.start (.set transactionID ticket))
  return { t with scrapeQueue := queue, starting := t.starting.eraseIdx i }

/-- The queue without a call or a response: a write gets the mutex, or a timer goes on. -/
def queueTurn (t : UDPTracker ι) (turn : Turn UInt32 Ticket) : Option (UDPTracker ι) :=
  (t.scrapeQueue.turn turn).map (fun queue => { t with scrapeQueue := queue })

def handleConnect (t : UDPTracker ι) (n : ℕ) (reader : Bytes) : Option (UDPTracker ι) :=
  match readFixed 8 (fun b => UInt64.ofNat (beValue b)) reader with
  | none => t.linkTurn (.fail n .handler)
  | some (connectionID,_) => t.linkTurn (.connected n connectionID)

def readResults : List Bytes → Bytes → Option (List ScrapeResult)
  | [], _ => some []
  | infoHash :: infoHashes, reader => do
    let (response,reader) ← readFixed 12 ScrapeResponse.decode reader
    let results ← readResults infoHashes reader
    return ⟨response,infoHash⟩ :: results

/-- An error on the way makes the loop disconnect. -/
def handleScrape (t : UDPTracker ι) (n : ℕ) (datagram reader : Bytes) (hdr : TrackerResponseHeader) :
    Option (UDPTracker ι) := do
  let (ticket,cache) ← t.scrapeQueue.cache.getAndRemove hdr.transactionID
  let t := { t with scrapeQueue := ⟨cache,t.scrapeQueue.inFlight⟩ }
  match ticket with
  | none => t.linkTurn (.scraped n false)
  | some ticket =>
    match readResults ticket.infoHashes reader with
    | none => t.linkTurn (.fail n .handler)
    | some results =>
      let t ← t.linkTurn (.scraped n true)
      return { t with sending := t.sending ++ [⟨n,ticket.call,datagram,results⟩] }

/-- One round of the loop `n`. What does not fit into the buffer of a datagram is lost. -/
def receive (t : UDPTracker ι) (n : ℕ) (datagram : Bytes) : Option (UDPTracker ι) :=
  match readFixed 8 TrackerResponseHeader.decode (datagram.take 2048) with
  | none => t.linkTurn (.fail n .parse)
  | some (hdr,reader) =>
    if hdr.action = actionConnect then t.handleConnect n reader
    else if hdr.action = actionScrape then t.handleScrape n datagram reader hdr
    else t.linkTurn (.fail n .handler)

/-- The send of an answer meets a receive, and its loop goes on. -/
def deliver (t : UDPTracker ι) (i : ℕ) : Option (UDPTracker ι) := do
  let answer ← t.sending[i]?
  let t ← t.linkTurn (.delivered answer.loop)
  return { t with sending := t.sending.eraseIdx i, results := t.results ++ [answer] }

end UDPTracker

inductive Event (ι : Type)
  /-- A step of a call or of a loop that has to do neither with the queue nor with a datagram. -/
  | link (e : Tracker.Connection.Event ι)
  | scrape (i : ι) (transactionID : UInt32) (infoHashes : List Bytes)
  | push (i : ℕ)
  | insert (i : ℕ)
  | receive (n : ℕ) (datagram : Bytes)
  | deliver (i : ℕ)
  | tick
  | fire (id : ℕ)
  | expire (transactionID : UInt32)
  deriving DecidableEq

/-- The other steps of the calls and loops are made together with something here. -/
def bare : Tracker.Connection.Event ι → Bool
  | .request _ => false
  | .panic _ => false
  | .connected _ _ => false
  | .scraped _ _ => false
  | .delivered _ => false
  | .fail _ cause => cause = .read
  | _ => true

def step (t : UDPTracker ι) : Event ι → Option (UDPTracker ι)
  | .link e => if bare e then t.linkTurn e else none
  | .scrape i transactionID infoHashes => t.scrape i transactionID infoHashes
  | .push i => t.push i
  | .insert i => t.queueTurn (.insert i)
  | .receive n datagram => t.receive n datagram
  | .deliver i => t.deliver i
  | .tick => t.queueTurn (.start .tick)
  | .fire id => t.queueTurn (.start (.fire id))
  | .expire transactionID => t.queueTurn (.start (.expire transactionID))

end Machine

/-- Calls are for hashes of twenty octets, and those under way have distinct transaction IDs. -/
def DistinctIds (t : UDPTracker ι) : Event ι → Prop
  | .scrape _ transactionID infoHashes =>
    (∀ h ∈ infoHashes, h.length = 20) ∧ transactionID ∉ t.underWay.map Prod.fst
  | _ => True

instance decidableDistinctIds (t : UDPTracker ι) : ∀ e, Decidable (DistinctIds t e)
  | .scrape _ transactionID infoHashes => inferInstanceAs
      (Decidable ((∀ h ∈ infoHashes, h.length = 20) ∧ transactionID ∉ t.underWay.map Prod.fst))
  | .link _ => isTrue trivial
  | .push _ => isTrue trivial
  | .insert _ => isTrue trivial
  | .receive _ _ => isTrue trivial
  | .deliver _ => isTrue trivial
  | .tick => isTrue trivial
  | .fire _ => isTrue trivial
  | .expire _ => isTrue trivial

/-- The number in four octets of a datagram, the most significant one first. -/
def number (b : Bytes) (i : ℕ) : ℕ := beValue ((b.drop i).take 4)

/-- The results are those of the call, in the order of its request, and each has the three numbers of the
record of the datagram at its place. -/
structure Answer.Answers (a : Answer) (call : Call) : Prop where
  transaction : number a.datagram 4 = call.transactionID.toNat
  long : 8 + 12*call.infoHashes.length ≤ a.datagram.length
  hashes : a.results.map ScrapeResult.infoHash = call.infoHashes
  order : ∀ i r, a.results[i]? = some r → r.infoHash = (call.request.drop (16 + 20*i)).take 20
  counts : ∀ i r, a.results[i]? = some r →
    r.seeders.toNat = number a.datagram (8 + 12*i) ∧ r.completed.toNat = number a.datagram (12 + 12*i) ∧
    r.leechers.toNat = number a.datagram (16 + 12*i)

theorem toNat_word (b : Bytes) (i : ℕ) : (word b i).toNat = number b i := by
  have hlen : ((b.drop i).take 4).length ≤ 4 := List.length_take_le _ _
  have hlt : number b i < 2^32 :=
    (beValue_lt _).trans_le (Nat.pow_le_pow_right (by decide) hlen)
  exact UInt32.toNat_ofNat_of_lt hlt

/-- A word of a record is the one of the datagram at its place. -/
theorem word_record {b : Bytes} {k i : ℕ} (hi : i + 4 ≤ 12) : word ((b.drop k).take 12) i = word b (k + i) := by
  rw [word,word,List.drop_take,List.drop_drop,List.take_take,Nat.min_eq_left (by omega)]

/-- The numbers of a result are those of its record. -/
theorem Answer.Answers.decode {a : Answer} {call : Call} (h : a.Answers call) {i : ℕ} {r : ScrapeResult}
    (hi : a.results[i]? = some r) :
    r.toScrapeResponse = ScrapeResponse.decode ((a.datagram.drop (8 + 12*i)).take 12) := by
  obtain ⟨hseeders,hcompleted,hleechers⟩ := h.counts i r hi
  have hfirst : r.seeders = word a.datagram (8 + 12*i) := UInt32.toNat_inj.mp (by rw [hseeders,toNat_word])
  have hsecond : r.completed = word a.datagram (8 + 12*i + 4) :=
    UInt32.toNat_inj.mp (by rw [hcompleted,toNat_word]; congr 1; omega)
  have hthird : r.leechers = word a.datagram (8 + 12*i + 8) :=
    UInt32.toNat_inj.mp (by rw [hleechers,toNat_word]; congr 1; omega)
  rw [ScrapeResponse.decode,word_record (by decide),word_record (by decide),word_record (by decide),Nat.add_zero,
    ← hfirst,← hsecond,← hthird]

/-- The results pair the hashes with the records that follow each other in the reader. -/
theorem readResults_spec {infoHashes : List Bytes} {reader : Bytes} {results : List ScrapeResult}
    (h : UDPTracker.readResults infoHashes reader = some results) :
    12*infoHashes.length ≤ reader.length ∧ results.map ScrapeResult.infoHash = infoHashes ∧
    ∀ i r, results[i]? = some r → r.toScrapeResponse = ScrapeResponse.decode ((reader.drop (12*i)).take 12) := by
  induction infoHashes generalizing reader results with
  | nil =>
    cases h
    simp
  | cons infoHash infoHashes ih =>
    simp only [UDPTracker.readResults,Option.bind_eq_bind,Option.bind_eq_some_iff] at h
    obtain ⟨⟨response,rest⟩,hread,tail,htail,h⟩ := h
    cases h
    obtain ⟨hlen,rfl,rfl⟩ := readFixed_eq_some.mp hread
    obtain ⟨hlong,hhashes,hcounts⟩ := ih htail
    rw [List.length_drop] at hlong
    refine ⟨by rw [List.length_cons]; omega,by rw [List.map_cons,hhashes],?_⟩
    intro i r hi
    cases i with
    | zero =>
      cases hi
      rfl
    | succ i =>
      rw [hcounts i r hi,List.drop_drop,Nat.mul_succ,Nat.add_comm 12]

/-- What lies inside the buffer is read as from the datagram. -/
theorem take_buffer {datagram : Bytes} {n k m : ℕ} (h : k + m ≤ n) :
    ((datagram.take n).drop k).take m = (datagram.drop k).take m := by
  rw [List.drop_take,List.take_take,Nat.min_eq_left (by omega)]

theorem word_buffer {datagram : Bytes} {n k : ℕ} (h : k + 4 ≤ n) : word (datagram.take n) k = word datagram k := by
  rw [word,word,take_buffer h]

theorem hash_at {infoHashes : List Bytes} (hlen : ∀ h ∈ infoHashes, h.length = 20) {i : ℕ} {infoHash : Bytes}
    (hi : infoHashes[i]? = some infoHash) :
    ((infoHashes.flatMap (·.take 20)).drop (20*i)).take 20 = infoHash := by
  induction infoHashes generalizing i with
  | nil => cases hi
  | cons first infoHashes ih =>
    have hfirst : first.length = 20 := hlen first List.mem_cons_self
    rw [List.flatMap_cons,List.take_of_length_le (Nat.le_of_eq hfirst)]
    cases i with
    | zero =>
      cases hi
      rw [Nat.mul_zero,List.drop_zero,List.take_left' hfirst]
    | succ i =>
      rw [Nat.mul_succ,Nat.add_comm,← List.drop_drop,List.drop_left' hfirst]
      exact ih (fun h hh => hlen h (List.mem_cons_of_mem _ hh)) hi

/-- The hashes stand in the request behind its header of sixteen octets. -/
theorem request_hash (connectionID : UInt64) (transactionID : UInt32) {infoHashes : List Bytes}
    (hlen : ∀ h ∈ infoHashes, h.length = 20) {i : ℕ} {infoHash : Bytes} (hi : infoHashes[i]? = some infoHash) :
    ((scrapeRequest connectionID transactionID infoHashes).drop (16 + 20*i)).take 20 = infoHash := by
  rw [scrapeRequest,← List.drop_drop,List.drop_left' (by simp)]
  exact hash_at hlen hi

section Inversion
variable [DecidableEq ι]

theorem linkTurn_eq_some {t t' : UDPTracker ι} {e : Tracker.Connection.Event ι} :
    t.linkTurn e = some t' ↔ ∃ link, Tracker.Connection.step t.link e = some link ∧ t' = { t with link := link } := by
  rw [UDPTracker.linkTurn,Option.map_eq_some_iff]
  exact ⟨fun ⟨link,h,he⟩ => ⟨link,h,he.symm⟩,fun ⟨link,h,he⟩ => ⟨link,h,he.symm⟩⟩

/-- The loop takes a step for its datagram, which is no business of the queue, takes a call out of it, or
answers this call. -/
theorem receive_cases {t t' : UDPTracker ι} {n : ℕ} {datagram : Bytes} (h : t.receive n datagram = some t') :
    ∃ e link, Tracker.Connection.step t.link e = some link ∧
    ((e.Still ∧ t' = { t with link := link }) ∨
    (∃ cache, e.Still ∧ t.scrapeQueue.cache.delete (word datagram 4) = some cache ∧
      t' = { t with link := link, scrapeQueue := ⟨cache,t.scrapeQueue.inFlight⟩ }) ∨
    (∃ cache ticket results, t.scrapeQueue.cache.delete (word datagram 4) = some cache ∧
      t.scrapeQueue.cache.get (word datagram 4) = some ticket ∧ 8 ≤ datagram.length ∧ e = .scraped n true ∧
      UDPTracker.readResults ticket.infoHashes ((datagram.take 2048).drop 8) = some results ∧
      t' = { t with
        link := link
        scrapeQueue := ⟨cache,t.scrapeQueue.inFlight⟩
        sending := t.sending ++ [⟨n,ticket.call,datagram,results⟩] })) := by
  have hlink : ∀ {e}, t.linkTurn e = some t' →
      ∃ link, Tracker.Connection.step t.link e = some link ∧ t' = { t with link := link } := linkTurn_eq_some.mp
  unfold UDPTracker.receive at h
  cases hread : readFixed 8 TrackerResponseHeader.decode (datagram.take 2048) with
  | none =>
    simp only [hread] at h
    obtain ⟨link,hstep,rfl⟩ := hlink h
    exact ⟨_,link,hstep,.inl ⟨Tracker.Connection.Event.still_of_atResult rfl,rfl⟩⟩
  | some p =>
    obtain ⟨hdr,reader⟩ := p
    obtain ⟨hlen,rfl,rfl⟩ := readFixed_eq_some.mp hread
    have hid : (TrackerResponseHeader.decode ((datagram.take 2048).take 8)).transactionID = word datagram 4 := by
      rw [List.take_take]
      exact word_buffer (by decide)
    simp only [hread] at h
    split at h
    · rw [UDPTracker.handleConnect] at h
      split at h
      · obtain ⟨link,hstep,rfl⟩ := hlink h
        exact ⟨_,link,hstep,.inl ⟨Tracker.Connection.Event.still_of_atResult rfl,rfl⟩⟩
      · obtain ⟨link,hstep,rfl⟩ := hlink h
        exact ⟨_,link,hstep,.inl ⟨Tracker.Connection.Event.still_of_atResult rfl,rfl⟩⟩
    · split at h
      · simp only [UDPTracker.handleScrape,LRWCache.getAndRemove,hid,Option.bind_eq_bind,Option.bind_eq_some_iff] at h
        obtain ⟨⟨ticket,cache⟩,⟨cache',hdelete,hpair⟩,h⟩ := h
        obtain ⟨rfl,rfl⟩ := Prod.mk.inj (Option.some.inj hpair)
        cases hget : t.scrapeQueue.cache.get (word datagram 4) with
        | none =>
          rw [hget] at h
          obtain ⟨link,hstep,rfl⟩ := linkTurn_eq_some.mp h
          exact ⟨_,link,hstep,.inr (.inl ⟨cache',Tracker.Connection.Event.still_of_atResult rfl,hdelete,rfl⟩)⟩
        | some ticket =>
          rw [hget] at h
          rw [List.length_take] at hlen
          cases hresults : UDPTracker.readResults ticket.infoHashes ((datagram.take 2048).drop 8) with
          | none =>
            simp only [hresults] at h
            obtain ⟨link,hstep,rfl⟩ := linkTurn_eq_some.mp h
            exact ⟨_,link,hstep,.inr (.inl ⟨cache',Tracker.Connection.Event.still_of_atResult rfl,hdelete,rfl⟩)⟩
          | some results =>
            simp only [hresults,Option.bind_eq_some_iff] at h
            obtain ⟨u,hu,h⟩ := h
            obtain ⟨link,hstep,rfl⟩ := linkTurn_eq_some.mp hu
            refine ⟨_,link,hstep,.inr (.inr ⟨cache',ticket,results,hdelete,rfl,by omega,rfl,hresults,?_⟩)⟩
            exact (Option.some.inj h).symm
      · obtain ⟨link,hstep,rfl⟩ := hlink h
        exact ⟨_,link,hstep,.inl ⟨Tracker.Connection.Event.still_of_atResult rfl,rfl⟩⟩

theorem scrape_eq_some {t t' : UDPTracker ι} {i : ι} {transactionID : UInt32} {infoHashes : List Bytes}
    (hlen : ∀ h ∈ infoHashes, h.length = 20) (h : t.scrape i transactionID infoHashes = some t') :
    ∃ link, Tracker.Connection.step t.link (.request i) = some link ∧
      t' = { t with
        link := link
        starting := t.starting ++ [(transactionID,⟨t.calls.length,infoHashes⟩)]
        calls := t.calls ++
          [⟨transactionID,infoHashes,scrapeRequest t.link.connectionID transactionID infoHashes⟩] } := by
  rw [UDPTracker.scrape,if_pos fun b hb => (hlen b hb).ge] at h
  obtain ⟨u,hu,rfl⟩ := Option.map_eq_some_iff.mp h
  obtain ⟨link,hlink,rfl⟩ := linkTurn_eq_some.mp hu
  exact ⟨link,hlink,rfl⟩

theorem deliver_eq_some {t t' : UDPTracker ι} {i : ℕ} (h : t.deliver i = some t') :
    ∃ a link, t.sending[i]? = some a ∧ Tracker.Connection.step t.link (.delivered a.loop) = some link ∧
      t' = { t with link := link, sending := t.sending.eraseIdx i, results := t.results ++ [a] } := by
  simp only [UDPTracker.deliver,Option.bind_eq_bind,Option.bind_eq_some_iff] at h
  obtain ⟨a,hi,u,hu,h⟩ := h
  obtain ⟨link,hlink,rfl⟩ := linkTurn_eq_some.mp hu
  exact ⟨a,link,hi,hlink,(Option.some.inj h).symm⟩

end Inversion

/-- An answer that is delivered moves from one list to the other. -/
theorem perm_deliver {sending : List Answer} (results : List Answer) {i : ℕ} {a : Answer} (hi : sending[i]? = some a) :
    (sending.eraseIdx i ++ (results ++ [a])).Perm (sending ++ results) := by
  rw [← List.append_assoc]
  exact (List.perm_append_singleton _ _).trans ((perm_cons_eraseIdx hi).append_right _).symm

/-- Every call under way is known under its ID and not answered yet; no call is answered twice. -/
structure Tracked (queueSize : ℕ) (t : UDPTracker ι) : Prop where
  metered : Metered queueSize t.scrapeQueue
  distinct : (t.underWay.map Prod.fst).Nodup
  requests : ∀ call ∈ t.calls, (∀ h ∈ call.infoHashes, h.length = 20) ∧
    ∃ id, call.request = scrapeRequest id call.transactionID call.infoHashes
  known : ∀ p ∈ t.underWay, ∃ call, t.calls[p.2.call]? = some call ∧ call.transactionID = p.1 ∧
    call.infoHashes = p.2.infoHashes ∧ p.2.call ∉ (t.sending ++ t.results).map Answer.call
  answered : ∀ a ∈ t.sending ++ t.results, ∃ call, t.calls[a.call]? = some call ∧ a.Answers call
  once : ((t.sending ++ t.results).map Answer.call).Nodup

namespace Tracked
variable {queueSize : ℕ} {t t' : UDPTracker ι}

/-- A change of the queue that adds nothing to what is under way. -/
theorem queue (ht : Tracked queueSize t) (link : Tracker.Connection.UDPTracker ι) {starting : List (UInt32 × Ticket)}
    {queue : Shared UInt32 Ticket} (hm : Metered queueSize queue) (hsub : (starting ++ queue.pending).Subperm t.underWay) :
    Tracked queueSize { t with link := link, starting := starting, scrapeQueue := queue } where
  metered := hm
  distinct := by
    obtain ⟨l,hperm,hl⟩ := hsub
    exact (hperm.map Prod.fst).nodup_iff.mp (ht.distinct.sublist (hl.map Prod.fst))
  requests := ht.requests
  known := fun p hp => ht.known p (hsub.subset hp)
  answered := ht.answered
  once := ht.once

theorem lt_of_answered (ht : Tracked queueSize t) : ∀ n ∈ (t.sending ++ t.results).map Answer.call, n < t.calls.length := by
  intro n hn
  obtain ⟨a,ha,rfl⟩ := List.mem_map.mp hn
  obtain ⟨call,hcall,-⟩ := ht.answered a ha
  exact (List.getElem?_eq_some_iff.mp hcall).1

/-- A call gets its token. Nothing is pending for its ID, so the cache is written as it should be. -/
theorem push (ht : Tracked queueSize t) {i : ℕ} (h : t.push i = some t') : Tracked queueSize t' := by
  simp only [UDPTracker.push,Option.bind_eq_bind,Option.bind_eq_some_iff] at h
  obtain ⟨⟨transactionID,ticket⟩,hi,queue,hqueue,h⟩ := h
  cases h
  have hperm := perm_cons_eraseIdx hi
  have hall : t.underWay.Perm ((transactionID,ticket) :: (t.starting.eraseIdx i ++ t.scrapeQueue.pending)) :=
    hperm.append_right _
  have hnew : transactionID ∉ t.scrapeQueue.pending.map Prod.fst := by
    intro hmem
    have hd := (hall.map Prod.fst).nodup_iff.mp ht.distinct
    rw [List.map_cons,List.map_append,List.nodup_cons] at hd
    exact hd.1 (List.mem_append_right _ hmem)
  have hm := ht.metered.turn (t := .start (.set transactionID ticket)) hnew hqueue
  rw [Shared.turn,Shared.push_blocking ht.metered.mode,Option.ite_none_right_eq_some,Option.some.injEq] at hqueue
  obtain ⟨-,rfl⟩ := hqueue
  refine ht.queue t.link hm ?_
  rw [Shared.pending_push,← List.append_assoc]
  exact ((List.perm_append_singleton _ _).trans hall.symm).subperm

theorem queueTurn (ht : Tracked queueSize t) (turn : Turn UInt32 Ticket)
    (hset : ∀ key value, turn ≠ .start (.set key value)) (hfresh : WritesFresh t.scrapeQueue turn)
    (h : t.queueTurn turn = some t') : Tracked queueSize t' := by
  obtain ⟨queue,hqueue,rfl⟩ := Option.map_eq_some_iff.mp h
  refine ht.queue t.link (ht.metered.turn hfresh hqueue) ?_
  exact (List.subperm_append_left _).mpr (ht.metered.pending_turn hset hqueue)

/-- The answer is one to the call that was queued under the ID of the datagram. -/
theorem answers (ht : Tracked queueSize t) {n : ℕ} {datagram : Bytes} {ticket : Ticket} {results : List ScrapeResult}
    (hget : t.scrapeQueue.cache.get (word datagram 4) = some ticket) (hlen : 8 ≤ datagram.length)
    (hread : UDPTracker.readResults ticket.infoHashes ((datagram.take 2048).drop 8) = some results) :
    ∃ call, t.calls[ticket.call]? = some call ∧ (⟨n,ticket.call,datagram,results⟩ : Answer).Answers call := by
  have hmem : (word datagram 4,ticket) ∈ t.underWay := List.mem_append_right _ (Shared.mem_pending_of_get hget)
  obtain ⟨call,hcall,hid,hhashes,-⟩ := ht.known _ hmem
  obtain ⟨htwenty,id,hrequest⟩ := ht.requests call (List.mem_of_getElem? hcall)
  obtain ⟨hlong,hmap,hcounts⟩ := readResults_spec hread
  rw [← hhashes] at hlong hmap
  rw [List.length_drop,List.length_take] at hlong
  refine ⟨call,hcall,by rw [hid,toNat_word],by dsimp only; omega,hmap,?_,?_⟩
  · intro i r hr
    have hi : call.infoHashes[i]? = some r.infoHash := by
      rw [← hmap,List.getElem?_map,hr]
      rfl
    rw [hrequest,request_hash id call.transactionID htwenty hi]
  · intro i r hr
    have hi : i < call.infoHashes.length := by
      rw [← hmap,List.length_map]
      exact (List.getElem?_eq_some_iff.mp hr).1
    have hrecord : r.toScrapeResponse = ScrapeResponse.decode ((datagram.drop (8 + 12*i)).take 12) := by
      rw [hcounts i r hr,List.drop_drop,take_buffer (by omega)]
    rw [hrecord,ScrapeResponse.decode]
    dsimp only
    rw [word_record (by decide),word_record (by decide),word_record (by decide),toNat_word,toNat_word,toNat_word]
    exact ⟨rfl,by congr 1; omega,by congr 1; omega⟩

/-- Only one call is under way for each ID, so the call that is answered leaves. -/
theorem notMem_underWay (ht : Tracked queueSize t) {transactionID : UInt32} {cache : LRWCache UInt32 Ticket}
    (hdelete : t.scrapeQueue.cache.delete transactionID = some cache) (hmem : transactionID ∈ t.scrapeQueue.cache.data) :
    transactionID ∉ (t.starting ++ (⟨cache,t.scrapeQueue.inFlight⟩ : Shared UInt32 Ticket).pending).map Prod.fst := by
  have hd := ht.distinct
  rw [UDPTracker.underWay,List.map_append] at hd
  rw [List.map_append]
  have hperm := ((Shared.keys_delete hdelete hmem).append_left (t.starting.map Prod.fst)).trans List.perm_middle
  exact (List.nodup_cons.mp (hperm.nodup_iff.mp hd)).1

theorem answer (ht : Tracked queueSize t) (link : Tracker.Connection.UDPTracker ι) {n : ℕ} {datagram : Bytes}
    {cache : LRWCache UInt32 Ticket} {ticket : Ticket} {results : List ScrapeResult}
    (hdelete : t.scrapeQueue.cache.delete (word datagram 4) = some cache)
    (hget : t.scrapeQueue.cache.get (word datagram 4) = some ticket) (hlen : 8 ≤ datagram.length)
    (hread : UDPTracker.readResults ticket.infoHashes ((datagram.take 2048).drop 8) = some results) :
    Tracked queueSize { t with
      link := link
      scrapeQueue := ⟨cache,t.scrapeQueue.inFlight⟩
      sending := t.sending ++ [⟨n,ticket.call,datagram,results⟩] } := by
  have hsub : (t.starting ++ (⟨cache,t.scrapeQueue.inFlight⟩ : Shared UInt32 Ticket).pending).Subperm t.underWay :=
    ((Shared.pending_delete hdelete).append_left _).subperm
  have hq := ht.queue link (ht.metered.delete hdelete) hsub
  have hmem : (word datagram 4,ticket) ∈ t.underWay := List.mem_append_right _ (Shared.mem_pending_of_get hget)
  obtain ⟨call,hcall,hid,-,hopen⟩ := ht.known _ hmem
  have hdata : word datagram 4 ∈ t.scrapeQueue.cache.data := by
    obtain ⟨entry,hentry,-⟩ := Option.map_eq_some_iff.mp hget
    exact AList.lookup_isSome.mp (by rw [hentry]; rfl)
  have hgone := ht.notMem_underWay hdelete hdata
  have hperm : (t.sending ++ [(⟨n,ticket.call,datagram,results⟩ : Answer)] ++ t.results).Perm
      (⟨n,ticket.call,datagram,results⟩ :: (t.sending ++ t.results)) := by
    rw [List.append_assoc]
    exact List.perm_middle
  refine ⟨hq.metered,hq.distinct,ht.requests,?_,?_,?_⟩
  · intro p hp
    obtain ⟨call',hcall',hid',hhashes',hopen'⟩ := hq.known p hp
    refine ⟨call',hcall',hid',hhashes',?_⟩
    intro hn
    rcases List.mem_cons.mp ((hperm.map Answer.call).mem_iff.mp hn) with hn | hn
    · -- The call of the answer has the ID that is no longer under way.
      rw [hn] at hcall'
      cases hcall.symm.trans hcall'
      exact hgone (List.mem_map.mpr ⟨p,hp,hid'.symm.trans hid⟩)
    · exact hopen' hn
  · intro a ha
    rcases List.mem_cons.mp (hperm.mem_iff.mp ha) with rfl | ha
    · exact ht.answers hget hlen hread
    · exact ht.answered a ha
  · exact (hperm.map Answer.call).nodup_iff.mpr (List.nodup_cons.mpr ⟨hopen,ht.once⟩)

section Steps
variable [DecidableEq ι]

/-- A call with a new ID joins those under way. -/
theorem scrape (ht : Tracked queueSize t) {i : ι} {transactionID : UInt32} {infoHashes : List Bytes}
    (hlen : ∀ h ∈ infoHashes, h.length = 20) (hnew : transactionID ∉ t.underWay.map Prod.fst)
    (h : t.scrape i transactionID infoHashes = some t') : Tracked queueSize t' := by
  obtain ⟨link,-,rfl⟩ := scrape_eq_some hlen h
  have hperm : (t.starting ++ [(transactionID,(⟨t.calls.length,infoHashes⟩ : Ticket))] ++ t.scrapeQueue.pending).Perm
      ((transactionID,⟨t.calls.length,infoHashes⟩) :: t.underWay) := by
    rw [List.append_assoc]
    exact List.perm_middle
  -- The number of an earlier call still names it.
  have hcalls : ∀ (n : ℕ) call, t.calls[n]? = some call → ∀ new, (t.calls ++ [new])[n]? = some call := by
    intro n call hcall new
    rw [List.getElem?_append_left (List.getElem?_eq_some_iff.mp hcall).1,hcall]
  refine ⟨ht.metered,?_,?_,?_,?_,ht.once⟩
  · refine (hperm.map Prod.fst).nodup_iff.mpr ?_
    exact List.nodup_cons.mpr ⟨hnew,ht.distinct⟩
  · refine List.forall_mem_append.mpr ⟨ht.requests,List.forall_mem_singleton.mpr ?_⟩
    exact ⟨hlen,t.link.connectionID,rfl⟩
  · intro p hp
    rcases List.mem_cons.mp (hperm.mem_iff.mp hp) with rfl | hp
    · refine ⟨_,List.getElem?_concat_length,rfl,rfl,?_⟩
      exact fun hn => absurd (ht.lt_of_answered _ hn) (Nat.lt_irrefl _)
    · obtain ⟨call,hcall,hrest⟩ := ht.known p hp
      exact ⟨call,hcalls _ call hcall _,hrest⟩
  · intro a ha
    obtain ⟨call,hcall,hrest⟩ := ht.answered a ha
    exact ⟨call,hcalls _ call hcall _,hrest⟩

theorem receive (ht : Tracked queueSize t) {n : ℕ} {datagram : Bytes} (h : t.receive n datagram = some t') :
    Tracked queueSize t' := by
  obtain ⟨e,link,-,⟨-,rfl⟩ | ⟨cache,-,hdelete,rfl⟩ | ⟨cache,ticket,results,hdelete,hget,hlen,-,hread,rfl⟩⟩ :=
    receive_cases h
  · exact ht.queue link ht.metered (List.Subperm.refl _)
  · exact ht.queue link (ht.metered.delete hdelete) ((Shared.pending_delete hdelete).append_left _).subperm
  · exact ht.answer link hdelete hget hlen hread

theorem deliver (ht : Tracked queueSize t) {i : ℕ} (h : t.deliver i = some t') : Tracked queueSize t' := by
  obtain ⟨a,link,hi,-,rfl⟩ := deliver_eq_some h
  have hperm := perm_deliver t.results hi
  refine ⟨ht.metered,ht.distinct,ht.requests,?_,?_,?_⟩
  · intro p hp
    obtain ⟨call,hcall,hid,hhashes,hopen⟩ := ht.known p hp
    exact ⟨call,hcall,hid,hhashes,fun hn => hopen ((hperm.map Answer.call).mem_iff.mp hn)⟩
  · exact fun b hb => ht.answered b (hperm.mem_iff.mp hb)
  · exact (hperm.map Answer.call).nodup_iff.mpr ht.once

theorem next {e : Event ι} (ht : Tracked queueSize t) (hg : DistinctIds t e) (h : step t e = some t') :
    Tracked queueSize t' := by
  cases e with
  | link e =>
    obtain ⟨link,-,rfl⟩ := linkTurn_eq_some.mp (Option.ite_none_right_eq_some.mp h).2
    exact ht.queue link ht.metered (List.Subperm.refl _)
  | scrape i transactionID infoHashes => exact ht.scrape hg.1 hg.2 h
  | push i => exact ht.push h
  | receive n datagram => exact ht.receive h
  | deliver i => exact ht.deliver h
  | insert i => exact ht.queueTurn (.insert i) (by simp) trivial h
  | tick => exact ht.queueTurn (.start .tick) (by simp) trivial h
  | fire id => exact ht.queueTurn (.start (.fire id)) (by simp) trivial h
  | expire transactionID => exact ht.queueTurn (.start (.expire transactionID)) (by simp) trivial h

end Steps

end Tracked

theorem tracked_newUDPTracker (queueTTL queueSize : ℕ) :
    Tracked queueSize (newUDPTracker queueTTL queueSize : UDPTracker ι) where
  metered := metered_newShared queueTTL queueSize
  distinct := List.nodup_nil
  requests := by simp [newUDPTracker]
  known := by
    intro p hp
    cases hp
  answered := by simp [newUDPTracker]
  once := List.nodup_nil

/-- Every list of results answers one call, each call is answered at most once, and a datagram
answers no call but the one under way with its transaction ID. -/
theorem results_attributed [DecidableEq ι] (queueTTL queueSize : ℕ) (t : UDPTracker ι)
    (ht : Reach step DistinctIds (newUDPTracker queueTTL queueSize) t) :
    (∀ a ∈ t.results, ∃ call, t.calls[a.call]? = some call ∧ a.Answers call) ∧
    (t.results.map Answer.call).Nodup ∧
    (∀ n datagram t', step t (.receive n datagram) = some t' → t'.sending = t.sending ∨
      ∃ a, t'.sending = t.sending ++ [a] ∧ a.datagram = datagram ∧
        ∀ p ∈ t.underWay, p.1 = word datagram 4 → p.2.call = a.call) := by
  have hi : Tracked queueSize t := ht.invariant (P := Tracked queueSize) (tracked_newUDPTracker queueTTL queueSize)
    (fun hs hg h => hs.next hg h)
  refine ⟨fun a ha => hi.answered a (List.mem_append_right _ ha),?_,?_⟩
  · have h := hi.once
    rw [List.map_append] at h
    exact (List.nodup_append.mp h).2.1
  · intro n datagram t' h
    obtain ⟨e,link,-,⟨-,rfl⟩ | ⟨cache,-,-,rfl⟩ | ⟨cache,ticket,results,-,hget,-,-,-,rfl⟩⟩ := receive_cases h
    · exact .inl rfl
    · exact .inl rfl
    · refine .inr ⟨_,rfl,rfl,?_⟩
      intro p hp hid
      have hmem : (word datagram 4,ticket) ∈ t.underWay := List.mem_append_right _ (Shared.mem_pending_of_get hget)
      rw [List.inj_on_of_nodup_map hi.distinct hp hmem hid]

/-- A connection is made, and its ID arrives for two calls. The later of them is answered first and the
other one by a datagram that is too short. -/
def twoCalls : List (Event Bool) :=
  [.link (.start true),.link (.resolve true true),.link (.dial true true),.link (.compare true),
    .link (.send true true),.link (.read 0),.link (.scrape true),.link (.check true),
    .receive 0 [0,0,0,0,0,0,0,1,0,0,0,0,0,0,0,9],.link (.handover 0 true),.link (.scrape false),.link (.check false),
    .scrape true 7 [List.replicate 20 1],.scrape false 8 [List.replicate 20 2,List.replicate 20 3],.push 1,.push 0,
    .insert 0,.insert 0,.link (.write true),.link (.write false),.link (.read 0),
    .receive 0 ([0,0,0,2,0,0,0,8] ++ List.replicate 3 0 ++ [5] ++ List.replicate 20 0),.deliver 0,.link (.read 0),
    .receive 0 [0,0,0,2,0,0,0,7,0]]

theorem twoCalls_attributed : ∃ t, run step (newUDPTracker 30 100) twoCalls = some t ∧
    t.results.map Answer.call = [1] ∧ (∀ a ∈ t.results, ∃ call, t.calls[a.call]? = some call ∧ a.Answers call) := by
  obtain ⟨h,-,-⟩ := results_attributed 30 100 _ (.of_guarded twoCalls rfl (by decide))
  exact ⟨_,rfl,rfl,h⟩

section Link
variable [DecidableEq ι] {t t' : UDPTracker ι}

/-- A step of the tracker is one of its calls and loops, or leaves them and the answers alone; and the
answers change with the loops at the channel `result`. -/
theorem link_step {e : Event ι} (h : step t e = some t') :
    (t'.link = t.link ∧ t'.sending = t.sending) ∨
    ∃ e', Tracker.Connection.step t.link e' = some t'.link ∧
      ((e'.Still ∧ t'.sending = t.sending) ∨
      (∃ a : Answer, e'.Parks a.loop ∧ t'.sending = t.sending ++ [a]) ∨
      (∃ i a, t.sending[i]? = some a ∧ e'.Frees a.loop ∧ t'.sending = t.sending.eraseIdx i)) := by
  have hturn : ∀ turn, t.queueTurn turn = some t' → t'.link = t.link ∧ t'.sending = t.sending := by
    intro turn h
    obtain ⟨queue,-,rfl⟩ := Option.map_eq_some_iff.mp h
    exact ⟨rfl,rfl⟩
  cases e with
  | link e =>
    obtain ⟨hbare,h⟩ := Option.ite_none_right_eq_some.mp h
    obtain ⟨link,hlink,rfl⟩ := linkTurn_eq_some.mp h
    refine .inr ⟨e,hlink,.inl ⟨fun n => ⟨?_,?_⟩,rfl⟩⟩
    · rintro rfl
      cases hbare
    · rintro rfl
      cases hbare
  | scrape i transactionID infoHashes =>
    rw [step,UDPTracker.scrape] at h
    split at h
    · obtain ⟨u,hu,rfl⟩ := Option.map_eq_some_iff.mp h
      obtain ⟨link,hlink,rfl⟩ := linkTurn_eq_some.mp hu
      exact .inr ⟨_,hlink,.inl ⟨Tracker.Connection.Event.still_of_atResult rfl,rfl⟩⟩
    · obtain ⟨link,hlink,rfl⟩ := linkTurn_eq_some.mp h
      exact .inr ⟨_,hlink,.inl ⟨Tracker.Connection.Event.still_of_atResult rfl,rfl⟩⟩
  | push i =>
    simp only [step,UDPTracker.push,Option.bind_eq_bind,Option.bind_eq_some_iff] at h
    obtain ⟨⟨id,ticket⟩,-,queue,-,h⟩ := h
    cases h
    exact .inl ⟨rfl,rfl⟩
  | receive n datagram =>
    obtain ⟨e',link,hlink,⟨hstill,rfl⟩ | ⟨cache,hstill,-,rfl⟩ | ⟨cache,ticket,results,-,-,-,hparks,-,rfl⟩⟩ :=
      receive_cases h
    · exact .inr ⟨e',hlink,.inl ⟨hstill,rfl⟩⟩
    · exact .inr ⟨e',hlink,.inl ⟨hstill,rfl⟩⟩
    · exact .inr ⟨e',hlink,.inr (.inl ⟨⟨n,ticket.call,datagram,results⟩,hparks,rfl⟩)⟩
  | deliver i =>
    obtain ⟨a,link,hi,hlink,rfl⟩ := deliver_eq_some h
    exact .inr ⟨_,hlink,.inr (.inr ⟨i,a,hi,rfl,rfl⟩)⟩
  | insert i => exact .inl (hturn _ h)
  | tick => exact .inl (hturn _ h)
  | fire id => exact .inl (hturn _ h)
  | expire id => exact .inl (hturn _ h)

/-- Each answer that is to be delivered is with one loop at the channel `result`, and each loop there has
one. -/
structure Parked (t : UDPTracker ι) : Prop where
  numbered : Tracker.Connection.Numbered t.link
  loops : ∀ n, (t.link.loops n).Delivering ↔ n ∈ t.sending.map Answer.loop
  once : (t.sending.map Answer.loop).Nodup

theorem Parked.next {e : Event ι} (ht : Parked t) (h : step t e = some t') : Parked t' := by
  rcases link_step h with ⟨hlink,hsending⟩ | ⟨e',hstep,hanswers⟩
  · exact ⟨hlink ▸ ht.numbered,by simpa only [hlink,hsending] using ht.loops,hsending ▸ ht.once⟩
  · have hnumbered := ht.numbered.step hstep
    have hdelivering := ht.numbered.delivering_step hstep
    rcases hanswers with ⟨he,hsending⟩ | ⟨a,hparks,hsending⟩ | ⟨i,a,hi,hfrees,hsending⟩
    · refine ⟨hnumbered,?_,hsending ▸ ht.once⟩
      intro n
      rw [hdelivering n,hsending,← ht.loops n]
      simp [he n]
    · have hnew : a.loop ∉ t.sending.map Answer.loop :=
        (ht.loops a.loop).not.mp (Tracker.Connection.not_delivering_of_parks hstep hparks)
      obtain rfl := hparks
      refine ⟨hnumbered,?_,?_⟩
      · intro n
        rw [hdelivering n,hsending,ht.loops n]
        simp [Tracker.Connection.Event.Parks,Tracker.Connection.Event.Frees,eq_comm]
      · rw [hsending,List.map_append,List.map_singleton]
        exact (List.perm_append_singleton _ _).nodup_iff.mpr (List.nodup_cons.mpr ⟨hnew,ht.once⟩)
    · have hperm := (perm_cons_eraseIdx hi).map Answer.loop
      have hnodup := hperm.nodup_iff.mp ht.once
      obtain ⟨hgone,honce⟩ := List.nodup_cons.mp hnodup
      obtain rfl := hfrees
      refine ⟨hnumbered,?_,hsending ▸ honce⟩
      intro n
      rw [hdelivering n,hsending,ht.loops n,hperm.mem_iff,List.map_cons,List.mem_cons]
      by_cases hn : n = a.loop
      · subst hn
        simp [Tracker.Connection.Event.Parks,Tracker.Connection.Event.Frees,hgone]
      · simp [Tracker.Connection.Event.Parks,Tracker.Connection.Event.Frees,hn,Ne.symm hn]

/-- In every run the calls and loops take a run of their own, and each answer waits at the channel with
one loop. -/
theorem tracker_whole {guard : UDPTracker ι → Event ι → Prop} (queueTTL queueSize : ℕ) (t : UDPTracker ι)
    (ht : Reach step guard (newUDPTracker queueTTL queueSize) t) :
    Reach Tracker.Connection.step (Free _ _) Tracker.Connection.newUDPTracker t.link ∧ Parked t := by
  refine ht.invariant (P := fun t => Reach Tracker.Connection.step (Free _ _) Tracker.Connection.newUDPTracker t.link ∧
    Parked t) ⟨.start,.new,?_,List.nodup_nil⟩ ?_
  · intro n
    simp [newUDPTracker,Tracker.Connection.newUDPTracker,Tracker.Connection.LoopPhase.Delivering]
  · rintro s e u ⟨hreach,hparked⟩ - h
    refine ⟨?_,hparked.next h⟩
    rcases link_step h with ⟨hlink,-⟩ | ⟨e',hstep,-⟩
    · exact hlink ▸ hreach
    · exact hreach.next trivial hstep

/-- The first answer is to be delivered. -/
theorem twoCalls_parked : ∃ t, run step (newUDPTracker 30 100) (twoCalls.take 22) = some t ∧
    t.sending.map Answer.loop = [0] ∧
    Reach Tracker.Connection.step (Free _ _) Tracker.Connection.newUDPTracker t.link ∧ (t.link.loops 0).Delivering := by
  obtain ⟨hreach,hparked⟩ := @tracker_whole Bool _ (Free _ _) 30 100 _ (.of_run (twoCalls.take 22) rfl)
  exact ⟨_,rfl,rfl,hreach,(hparked.loops 0).mpr List.mem_cons_self⟩

end Link

end DhtOcean.Scrape
