import DhtOcean.Scrape.Attribution

/-! # Scraping an honest tracker

The tracker at the other end answers each request with the counts of its hashes.
The network loses, repeats, delays and reorders the answers. Every result that comes
out is then the tracker's own for its hash, and an answer that arrives in time is
lost only if it is longer than the buffer for it.
-/
namespace DhtOcean.Scrape
open Foundation Cache

variable {ι : Type} [DecidableEq ι]

def ScrapeResponse.encode (r : ScrapeResponse) : Bytes :=
  beBytes 4 r.seeders.toNat ++ (beBytes 4 r.completed.toNat ++ beBytes 4 r.leechers.toNat)

def hashesFrom : ℕ → Bytes → List Bytes
  | 0, _ => []
  | n+1, b => b.take 20 :: hashesFrom n (b.drop 20)

/-- The hashes behind the header of a request. -/
def requestHashes (request : Bytes) : List Bytes := hashesFrom ((request.length - 16)/20) (request.drop 16)

/-- The tracker's answer to a scrape request, under the transaction ID of the request. -/
def answerTo (counts : Bytes → ScrapeResponse) (request : Bytes) : Option Bytes :=
  if 16 ≤ request.length ∧ word request 8 = actionScrape then
    some (beBytes 4 actionScrape.toNat ++ ((request.drop 12).take 4 ++
      (requestHashes request).flatMap (fun infoHash => (counts infoHash).encode)))
  else none

/-- The tracker's answer to a connect request. -/
def connectResponse (transactionID : UInt32) (connectionID : UInt64) : Bytes :=
  beBytes 4 actionConnect.toNat ++ (beBytes 4 transactionID.toNat ++ beBytes 8 connectionID.toNat)

section Format

theorem word_at {a b : Bytes} {i : ℕ} (x : UInt32) (hi : a.length = i) :
    word (a ++ (beBytes 4 x.toNat ++ b)) i = x := by
  rw [word,List.drop_left' hi,List.take_left' (length_beBytes 4 _),beValue_beBytes x.toNat_lt,UInt32.ofNat_toNat]

theorem length_encode (r : ScrapeResponse) : r.encode.length = 12 := by
  simp [ScrapeResponse.encode]

theorem decode_encode (r : ScrapeResponse) : ScrapeResponse.decode r.encode = r := by
  have hseeders : word r.encode 0 = r.seeders := word_at (a := []) r.seeders rfl
  have hcompleted : word r.encode 4 = r.completed := word_at r.completed (length_beBytes 4 _)
  have hleechers : word r.encode 8 = r.leechers := by
    have h := word_at (a := beBytes 4 r.seeders.toNat ++ beBytes 4 r.completed.toNat) (b := []) r.leechers
      (i := 8) (by simp)
    rwa [List.append_nil,List.append_assoc] at h
  rw [ScrapeResponse.decode,hseeders,hcompleted,hleechers]

theorem hashesFrom_flatMap {infoHashes : List Bytes} (hlen : ∀ h ∈ infoHashes, h.length = 20) :
    hashesFrom infoHashes.length (infoHashes.flatMap (·.take 20)) = infoHashes := by
  induction infoHashes with
  | nil => rfl
  | cons first infoHashes ih =>
    have hfirst : first.length = 20 := hlen first List.mem_cons_self
    rw [List.flatMap_cons,List.take_of_length_le hfirst.le,List.length_cons,hashesFrom,List.take_left' hfirst,
      List.drop_left' hfirst,ih (fun h hh => hlen h (List.mem_cons_of_mem _ hh))]

theorem length_flatMap_hashes {infoHashes : List Bytes} (hlen : ∀ h ∈ infoHashes, h.length = 20) :
    (infoHashes.flatMap (·.take 20)).length = 20*infoHashes.length := by
  induction infoHashes with
  | nil => rfl
  | cons first infoHashes ih =>
    have hfirst : first.length = 20 := hlen first List.mem_cons_self
    rw [List.flatMap_cons,List.length_append,List.take_of_length_le hfirst.le,hfirst,
      ih (fun h hh => hlen h (List.mem_cons_of_mem _ hh)),List.length_cons]
    omega

/-- The records of an answer. -/
def records (counts : Bytes → ScrapeResponse) (infoHashes : List Bytes) : Bytes :=
  infoHashes.flatMap (fun infoHash => (counts infoHash).encode)

/-- The answer to a call is its transaction ID and the records of its hashes, in their order. -/
theorem answerTo_scrapeRequest (counts : Bytes → ScrapeResponse) (connectionID : UInt64) (transactionID : UInt32)
    {infoHashes : List Bytes} (hlen : ∀ h ∈ infoHashes, h.length = 20) :
    answerTo counts (scrapeRequest connectionID transactionID infoHashes) =
      some (beBytes 4 actionScrape.toNat ++ (beBytes 4 transactionID.toNat ++ records counts infoHashes)) := by
  have hform : scrapeRequest connectionID transactionID infoHashes =
      beBytes 8 connectionID.toNat ++ (beBytes 4 actionScrape.toNat ++
        (beBytes 4 transactionID.toNat ++ infoHashes.flatMap (·.take 20))) := by
    simp only [scrapeRequest,List.append_assoc]
  have hlength : (scrapeRequest connectionID transactionID infoHashes).length = 16 + 20*infoHashes.length := by
    rw [hform]
    simp only [List.length_append,length_beBytes,length_flatMap_hashes hlen]
    omega
  have haction : word (scrapeRequest connectionID transactionID infoHashes) 8 = actionScrape := by
    rw [hform]
    exact word_at actionScrape (length_beBytes 8 _)
  have hsplit : scrapeRequest connectionID transactionID infoHashes =
      (beBytes 8 connectionID.toNat ++ beBytes 4 actionScrape.toNat) ++
        (beBytes 4 transactionID.toNat ++ infoHashes.flatMap (·.take 20)) := by
    rw [hform,List.append_assoc]
  have hid : ((scrapeRequest connectionID transactionID infoHashes).drop 12).take 4 = beBytes 4 transactionID.toNat := by
    rw [hsplit,List.drop_left' (by simp),List.take_left' (length_beBytes 4 _)]
  have hhashes : requestHashes (scrapeRequest connectionID transactionID infoHashes) = infoHashes := by
    have hdrop : (scrapeRequest connectionID transactionID infoHashes).drop 16 = infoHashes.flatMap (·.take 20) := by
      rw [scrapeRequest,List.drop_left' (by simp)]
    have hcount : (16 + 20*infoHashes.length - 16)/20 = infoHashes.length := by omega
    rw [requestHashes,hlength,hdrop,hcount,hashesFrom_flatMap hlen]
  rw [answerTo,if_pos ⟨by omega,haction⟩,hid,hhashes]
  rfl

theorem length_records (counts : Bytes → ScrapeResponse) (infoHashes : List Bytes) :
    (records counts infoHashes).length = 12*infoHashes.length := by
  induction infoHashes with
  | nil => rfl
  | cons first infoHashes ih =>
    have hcons : records counts (first :: infoHashes) = (counts first).encode ++ records counts infoHashes := rfl
    rw [hcons,List.length_append,length_encode,ih,List.length_cons]
    omega

theorem readResults_records (counts : Bytes → ScrapeResponse) (infoHashes : List Bytes) :
    UDPTracker.readResults infoHashes (records counts infoHashes) =
      some (infoHashes.map (fun infoHash => ⟨counts infoHash,infoHash⟩)) := by
  induction infoHashes with
  | nil => rfl
  | cons first infoHashes ih =>
    have hcons : records counts (first :: infoHashes) = (counts first).encode ++ records counts infoHashes := rfl
    rw [hcons,UDPTracker.readResults,readFixed_append _ (length_encode _),decode_encode]
    simp only [Option.bind_eq_bind,Option.bind_some,ih]
    rfl

end Format

theorem receive_connectResponse (t : UDPTracker ι) (n : ℕ) (transactionID : UInt32) (connectionID : UInt64) :
    t.receive n (connectResponse transactionID connectionID) = t.linkTurn (.connected n connectionID) := by
  have hlength : (connectResponse transactionID connectionID).length = 16 := by simp [connectResponse]
  have hsplit : connectResponse transactionID connectionID =
      (beBytes 4 actionConnect.toNat ++ beBytes 4 transactionID.toNat) ++ beBytes 8 connectionID.toNat := by
    rw [connectResponse,List.append_assoc]
  have haction : word (beBytes 4 actionConnect.toNat ++ beBytes 4 transactionID.toNat) 0 = actionConnect :=
    word_at (a := []) actionConnect rfl
  have hvalue : UInt64.ofNat (beValue (beBytes 8 connectionID.toNat)) = connectionID := by
    rw [beValue_beBytes connectionID.toNat_lt,UInt64.ofNat_toNat]
  rw [UDPTracker.receive,List.take_of_length_le (by omega),hsplit,readFixed_append _ (by simp)]
  simp only [TrackerResponseHeader.decode,haction,if_true,UDPTracker.handleConnect]
  rw [readFixed,if_pos (by simp),List.take_of_length_le (by simp)]
  simp only [hvalue]

/-- Each call has a transaction ID of its own, and what arrives is an answer of the tracker to a request
that was made, or to some connect request. -/
def Honest (counts : Bytes → ScrapeResponse) (t : UDPTracker ι) : Event ι → Prop
  | .scrape _ transactionID infoHashes =>
    (∀ h ∈ infoHashes, h.length = 20) ∧ transactionID ∉ t.calls.map Call.transactionID
  | .receive _ datagram =>
    (∃ call ∈ t.calls, answerTo counts call.request = some datagram) ∨
    ∃ transactionID connectionID, datagram = connectResponse transactionID connectionID
  | _ => True

/-- The answer says what the tracker has for the hashes of the call with its transaction ID. -/
def Truthful (counts : Bytes → ScrapeResponse) (calls : List Call) (a : Answer) : Prop :=
  ∃ call ∈ calls, a.datagram = beBytes 4 actionScrape.toNat ++
    (beBytes 4 call.transactionID.toNat ++ records counts call.infoHashes)

structure Served (counts : Bytes → ScrapeResponse) (queueSize : ℕ) (t : UDPTracker ι) : Prop where
  tracked : Tracked queueSize t
  distinct : (t.calls.map Call.transactionID).Nodup
  truthful : ∀ a ∈ t.sending ++ t.results, Truthful counts t.calls a

section Run
variable {counts : Bytes → ScrapeResponse} {queueSize : ℕ} {t t' : UDPTracker ι} {e : Event ι}

omit [DecidableEq ι] in
theorem Served.answerTo_call (ht : Served counts queueSize t) {call : Call} (hcall : call ∈ t.calls) :
    answerTo counts call.request = some (beBytes 4 actionScrape.toNat ++
      (beBytes 4 call.transactionID.toNat ++ records counts call.infoHashes)) := by
  obtain ⟨hlen,id,hrequest⟩ := ht.tracked.requests call hcall
  rw [hrequest,answerTo_scrapeRequest counts id call.transactionID hlen]

omit [DecidableEq ι] in
/-- What is under way has the IDs of calls. -/
theorem Served.distinctIds (ht : Served counts queueSize t) (hg : Honest counts t e) : DistinctIds t e := by
  cases e with
  | scrape i transactionID infoHashes =>
    refine ⟨hg.1,?_⟩
    intro hmem
    obtain ⟨p,hp,rfl⟩ := List.mem_map.mp hmem
    obtain ⟨call,hcall,hid,-⟩ := ht.tracked.known p hp
    exact hg.2 (List.mem_map.mpr ⟨call,List.mem_of_getElem? hcall,hid⟩)
  | _ => trivial

/-- Steps other than these two leave the calls and the answers as they are. -/
theorem step_calls (h : step t e = some t') (hscrape : ∀ i id hs, e ≠ .scrape i id hs)
    (hreceive : ∀ n d, e ≠ .receive n d) :
    t'.calls = t.calls ∧ ∀ a, a ∈ t'.sending ++ t'.results ↔ a ∈ t.sending ++ t.results := by
  have hturn : ∀ turn, t.queueTurn turn = some t' →
      t'.calls = t.calls ∧ ∀ a, a ∈ t'.sending ++ t'.results ↔ a ∈ t.sending ++ t.results := by
    intro turn h
    obtain ⟨queue,-,rfl⟩ := Option.map_eq_some_iff.mp h
    exact ⟨rfl,fun _ => Iff.rfl⟩
  cases e with
  | link e =>
    obtain ⟨link,-,rfl⟩ := linkTurn_eq_some.mp (Option.ite_none_right_eq_some.mp h).2
    exact ⟨rfl,fun _ => Iff.rfl⟩
  | scrape i id hs => exact absurd rfl (hscrape i id hs)
  | receive n d => exact absurd rfl (hreceive n d)
  | push i =>
    simp only [step,UDPTracker.push,Option.bind_eq_bind,Option.bind_eq_some_iff] at h
    obtain ⟨⟨id,ticket⟩,-,queue,-,h⟩ := h
    cases h
    exact ⟨rfl,fun _ => Iff.rfl⟩
  | deliver i =>
    obtain ⟨a,link,hi,-,rfl⟩ := deliver_eq_some h
    exact ⟨rfl,fun _ => (perm_deliver _ hi).mem_iff⟩
  | insert i => exact hturn _ h
  | tick => exact hturn _ h
  | fire id => exact hturn _ h
  | expire id => exact hturn _ h

theorem Served.next (ht : Served counts queueSize t) (hg : Honest counts t e) (h : step t e = some t') :
    Served counts queueSize t' := by
  have htracked := ht.tracked.next (ht.distinctIds hg) h
  by_cases hscrape : ∃ i id hs, e = .scrape i id hs
  · obtain ⟨i,id,hs,rfl⟩ := hscrape
    obtain ⟨link,-,rfl⟩ := scrape_eq_some hg.1 h
    refine ⟨htracked,?_,?_⟩
    · rw [List.map_append,List.map_singleton]
      exact (List.perm_append_singleton _ _).nodup_iff.mpr (List.nodup_cons.mpr ⟨hg.2,ht.distinct⟩)
    · intro a ha
      obtain ⟨call,hcall,htruth⟩ := ht.truthful a ha
      exact ⟨call,List.mem_append_left _ hcall,htruth⟩
  · by_cases hreceive : ∃ n d, e = .receive n d
    · obtain ⟨n,d,rfl⟩ := hreceive
      rcases hg with ⟨call,hcall,hd⟩ | ⟨transactionID,connectionID,rfl⟩
      · rw [ht.answerTo_call hcall,Option.some.injEq] at hd
        obtain ⟨e,link,-,⟨-,rfl⟩ | ⟨cache,-,-,rfl⟩ | ⟨cache,ticket,results,-,-,-,-,-,rfl⟩⟩ := receive_cases h
        · exact ⟨htracked,ht.distinct,ht.truthful⟩
        · exact ⟨htracked,ht.distinct,ht.truthful⟩
        · refine ⟨htracked,ht.distinct,?_⟩
          intro a ha
          rw [List.append_assoc] at ha
          rcases List.mem_append.mp ha with ha | ha
          · exact ht.truthful a (List.mem_append_left _ ha)
          · rcases List.mem_cons.mp ha with rfl | ha
            · exact ⟨call,hcall,hd.symm⟩
            · exact ht.truthful a (List.mem_append_right _ ha)
      · rw [step,receive_connectResponse] at h
        obtain ⟨link,-,rfl⟩ := linkTurn_eq_some.mp h
        exact ⟨htracked,ht.distinct,ht.truthful⟩
    · obtain ⟨hcalls,hanswers⟩ := step_calls h (fun i id hs he => hscrape ⟨i,id,hs,he⟩)
        (fun n d he => hreceive ⟨n,d,he⟩)
      refine ⟨htracked,hcalls ▸ ht.distinct,?_⟩
      intro a ha
      rw [hcalls]
      exact ht.truthful a ((hanswers a).mp ha)

omit [DecidableEq ι] in
theorem served_newUDPTracker (counts : Bytes → ScrapeResponse) (queueTTL queueSize : ℕ) :
    Served counts queueSize (newUDPTracker queueTTL queueSize : UDPTracker ι) where
  tracked := tracked_newUDPTracker queueTTL queueSize
  distinct := List.nodup_nil
  truthful := by simp [newUDPTracker]

theorem reach_served {queueTTL : ℕ} (ht : Reach step (Honest counts) (newUDPTracker queueTTL queueSize) t) :
    Served counts queueSize t :=
  ht.invariant (served_newUDPTracker counts queueTTL queueSize) (fun hs hg h => hs.next hg h)

theorem records_at (counts : Bytes → ScrapeResponse) {infoHashes : List Bytes} {i : ℕ} {infoHash : Bytes}
    (hi : infoHashes[i]? = some infoHash) :
    ((records counts infoHashes).drop (12*i)).take 12 = (counts infoHash).encode := by
  induction infoHashes generalizing i with
  | nil => cases hi
  | cons first infoHashes ih =>
    have hcons : records counts (first :: infoHashes) = (counts first).encode ++ records counts infoHashes := rfl
    cases i with
    | zero =>
      cases hi
      rw [hcons,Nat.mul_zero,List.drop_zero,List.take_left' (length_encode _)]
    | succ i =>
      rw [hcons,Nat.mul_succ,Nat.add_comm,← List.drop_drop,List.drop_left' (length_encode _)]
      exact ih hi

end Run

/-- Every count that comes out is the tracker's for its hash, however the answers are lost, repeated,
delayed and reordered. -/
theorem honest_results_exact (counts : Bytes → ScrapeResponse) (queueTTL queueSize : ℕ) (t : UDPTracker ι)
    (ht : Reach step (Honest counts) (newUDPTracker queueTTL queueSize) t) :
    ∀ a ∈ t.results, ∀ r ∈ a.results, r.toScrapeResponse = counts r.infoHash := by
  intro a ha r hr
  have hserved := reach_served ht
  have hmem : a ∈ t.sending ++ t.results := List.mem_append_right _ ha
  obtain ⟨call,hcall,hanswers⟩ := hserved.tracked.answered a hmem
  obtain ⟨other,hother,hdatagram⟩ := hserved.truthful a hmem
  -- The transaction ID says which call the datagram was for.
  have hid : other.transactionID.toNat = number a.datagram 4 := by
    rw [hdatagram,← toNat_word,word_at other.transactionID (length_beBytes 4 _)]
  obtain rfl : other = call :=
    List.inj_on_of_nodup_map hserved.distinct hother (List.mem_of_getElem? hcall)
      (UInt32.toNat_inj.mp (hid.trans hanswers.transaction))
  obtain ⟨i,hi⟩ := List.mem_iff_getElem?.mp hr
  have hhash : other.infoHashes[i]? = some r.infoHash := by
    rw [← hanswers.hashes,List.getElem?_map,hi]
    rfl
  have hrecord : ScrapeResponse.decode ((a.datagram.drop (8 + 12*i)).take 12) = counts r.infoHash := by
    rw [hdatagram,← List.append_assoc,← List.drop_drop,List.drop_left' (by simp),records_at counts hhash,
      decode_encode]
  rw [← hrecord]
  exact hanswers.decode hi

omit [DecidableEq ι] in
theorem honest_answerTo {counts : Bytes → ScrapeResponse} {t : UDPTracker ι} {call : Call} (hcall : call ∈ t.calls)
    {datagram : Bytes} (h : answerTo counts call.request = some datagram) (n : ℕ) :
    Honest counts t (.receive n datagram) :=
  Or.inl ⟨call,hcall,h⟩

def sampleCounts (infoHash : Bytes) : ScrapeResponse := ⟨(infoHash.headD 0).toUInt32,1,2⟩

/-- A call connects, waits for the connection ID, queues its hash and writes its request. -/
def queuedCall : List (Event Unit) :=
  [.link (.scrape ()),.link (.resolve () true),.link (.dial () true),.link (.compare ()),.link (.send () true),
    .link (.check ()),.link (.read 0),.receive 0 (connectResponse 1 9),.link (.handover 0 ()),
    .scrape () 7 [List.replicate 20 9],.push 0,.insert 0,.link (.write ()),.link (.read 0)]

def plainEvent (t : UDPTracker Unit) : Event Unit → Bool
  | .scrape _ transactionID infoHashes =>
    infoHashes.all (fun h => h.length == 20) && !(t.calls.map Call.transactionID).contains transactionID
  | .receive _ datagram => datagram == connectResponse 1 9
  | _ => true

theorem honest_of_plain {t : UDPTracker Unit} {e : Event Unit} (h : plainEvent t e = true) : Honest sampleCounts t e := by
  unfold Honest
  split
  · simpa [plainEvent] using h
  · exact .inr ⟨1,9,by simpa [plainEvent] using h⟩
  · trivial

theorem queuedCall_honest : Guarded step (Honest sampleCounts) (newUDPTracker 30 100) queuedCall := by
  have hplain : Guarded step (plainEvent · · = true) (newUDPTracker 30 100) queuedCall := by decide +kernel
  exact hplain.mono honest_of_plain

def answeredCall : List (Event Unit) :=
  queuedCall ++ [.receive 0 [0,0,0,2,0,0,0,7,0,0,0,9,0,0,0,1,0,0,0,2],.deliver 0]

theorem answeredCall_exact : ∃ t, run step (newUDPTracker 30 100) answeredCall = some t ∧
    t.results.flatMap Answer.results = [⟨⟨9,1,2⟩,List.replicate 20 9⟩] ∧
    ∀ a ∈ t.results, ∀ r ∈ a.results, r.toScrapeResponse = sampleCounts r.infoHash := by
  refine ⟨_,rfl,by decide +kernel,honest_results_exact sampleCounts 30 100 _ ?_⟩
  have hqueued := Reach.of_guarded queuedCall rfl queuedCall_honest
  have hanswered := hqueued.next (l := .receive 0 [0,0,0,2,0,0,0,7,0,0,0,9,0,0,0,1,0,0,0,2])
    (honest_answerTo List.mem_cons_self (by decide +kernel) 0) rfl
  exact hanswered.next (l := .deliver 0) trivial rfl

/-- The answer of the tracker for these hashes. -/
def scrapeAnswer (counts : Bytes → ScrapeResponse) (transactionID : UInt32) (infoHashes : List Bytes) : Bytes :=
  beBytes 4 actionScrape.toNat ++ (beBytes 4 transactionID.toNat ++ records counts infoHashes)

/-- An answer is handled as one, with as much of its records as the buffer holds. -/
theorem receive_scrapeAnswer (t : UDPTracker ι) (n : ℕ) (counts : Bytes → ScrapeResponse) (transactionID : UInt32)
    (infoHashes : List Bytes) :
    t.receive n (scrapeAnswer counts transactionID infoHashes) =
      t.handleScrape n (scrapeAnswer counts transactionID infoHashes) ((records counts infoHashes).take 2040)
        ⟨actionScrape,transactionID⟩ := by
  have hsplit : scrapeAnswer counts transactionID infoHashes =
      (beBytes 4 actionScrape.toNat ++ beBytes 4 transactionID.toNat) ++ records counts infoHashes := by
    rw [scrapeAnswer,List.append_assoc]
  have hheader : (beBytes 4 actionScrape.toNat ++ beBytes 4 transactionID.toNat).length = 8 := by simp
  have htake : (scrapeAnswer counts transactionID infoHashes).take 2048 =
      (beBytes 4 actionScrape.toNat ++ beBytes 4 transactionID.toNat) ++ (records counts infoHashes).take 2040 := by
    rw [hsplit,List.take_append,List.take_of_length_le (by omega),hheader]
  have haction : word (beBytes 4 actionScrape.toNat ++ beBytes 4 transactionID.toNat) 0 = actionScrape :=
    word_at (a := []) actionScrape rfl
  have hid : word (beBytes 4 actionScrape.toNat ++ beBytes 4 transactionID.toNat) 4 = transactionID := by
    have h := word_at (b := []) transactionID (length_beBytes 4 actionScrape.toNat)
    rwa [List.append_nil] at h
  rw [UDPTracker.receive,htake,readFixed_append _ hheader]
  simp only [TrackerResponseHeader.decode,haction,hid]
  rw [if_neg (by decide),if_true]

theorem handleScrape_queued {t : UDPTracker ι} {n : ℕ} {hdr : TrackerResponseHeader} {ticket : Ticket}
    {cache : LRWCache UInt32 Ticket} (datagram reader : Bytes)
    (hdelete : t.scrapeQueue.cache.delete hdr.transactionID = some cache)
    (hget : t.scrapeQueue.cache.get hdr.transactionID = some ticket) :
    t.handleScrape n datagram reader hdr =
      let t := { t with scrapeQueue := ⟨cache,t.scrapeQueue.inFlight⟩ }
      match UDPTracker.readResults ticket.infoHashes reader with
      | none => t.linkTurn (.fail n .handler)
      | some results =>
        (t.linkTurn (.scraped n true)).map fun t =>
          { t with sending := t.sending ++ [⟨n,ticket.call,datagram,results⟩] } := by
  simp only [UDPTracker.handleScrape,LRWCache.getAndRemove,hdelete,hget,Option.bind_eq_bind,Option.bind_some,
    Option.pure_def]
  cases UDPTracker.readResults ticket.infoHashes reader with
  | none => rfl
  | some results => simp only [Option.map_eq_bind,Function.comp_def]

/-- The records are read if none of them is cut off. -/
theorem readResults_take (counts : Bytes → ScrapeResponse) (infoHashes : List Bytes) :
    UDPTracker.readResults infoHashes ((records counts infoHashes).take 2040) =
      if infoHashes.length ≤ 170 then some (infoHashes.map (fun infoHash => ⟨counts infoHash,infoHash⟩)) else none := by
  have hlength := length_records counts infoHashes
  split
  · rw [List.take_of_length_le (by omega),readResults_records]
  · cases hread : UDPTracker.readResults infoHashes ((records counts infoHashes).take 2040) with
    | none => rfl
    | some results =>
      have hlong := (readResults_spec hread).1
      rw [List.length_take] at hlong
      omega

omit [DecidableEq ι] in
/-- Whatever is queued under an ID is the call that has it. -/
theorem Served.ticket_hashes {counts : Bytes → ScrapeResponse} {queueSize : ℕ} {t : UDPTracker ι}
    (ht : Served counts queueSize t) {call : Call} (hcall : call ∈ t.calls) {ticket : Ticket}
    (hget : t.scrapeQueue.cache.get call.transactionID = some ticket) :
    t.calls[ticket.call]? = some call ∧ ticket.infoHashes = call.infoHashes := by
  have hmem : (call.transactionID,ticket) ∈ t.underWay := List.mem_append_right _ (Shared.mem_pending_of_get hget)
  obtain ⟨other,hother,hid,hhashes,-⟩ := ht.tracked.known _ hmem
  obtain rfl : other = call := List.inj_on_of_nodup_map ht.distinct (List.mem_of_getElem? hother) hcall hid
  exact ⟨hother,hhashes.symm⟩

section Loop
variable {s : Tracker.Connection.UDPTracker ι} {n socket : ℕ}

theorem step_scraped (hrunning : s.crashed = false) (hreading : s.loops n = .reading socket) :
    Tracker.Connection.step s (.scraped n true) = some (s.turn n (.delivering socket)) := by
  simp [Tracker.Connection.step,Tracker.Connection.act,hrunning,hreading]

theorem step_fail (hrunning : s.crashed = false) (hreading : s.loops n = .reading socket)
    (cause : Tracker.Connection.Cause) :
    Tracker.Connection.step s (.fail n cause) = some (s.disconnect.turn n .absent) := by
  simp [Tracker.Connection.step,Tracker.Connection.act,hrunning,hreading]

omit [DecidableEq ι] in
theorem conn_disconnect (s : Tracker.Connection.UDPTracker ι) :
    s.disconnect.conn = none ∧ (s.conn.isSome → s.disconnect.connectionID = 0) := by
  unfold Tracker.Connection.UDPTracker.disconnect
  split
  · exact ⟨rfl,fun _ => rfl⟩
  · rename_i h
    exact ⟨by simpa using h,fun hsome => absurd hsome h⟩

end Loop

/-- The answer to a call that is still queued, read by some loop, comes out whole if it fits the buffer;
otherwise the call is given up together with the connection. -/
theorem honest_answer_fits_iff (counts : Bytes → ScrapeResponse) (queueTTL queueSize : ℕ) (t : UDPTracker ι)
    (ht : Reach step (Honest counts) (newUDPTracker queueTTL queueSize) t) (call : Call) (hcall : call ∈ t.calls)
    (ticket : Ticket) (hget : t.scrapeQueue.cache.get call.transactionID = some ticket) (datagram : Bytes)
    (hanswer : answerTo counts call.request = some datagram) (n socket : ℕ) (hrunning : t.link.crashed = false)
    (hreading : t.link.loops n = .reading socket) :
    ∃ t', step t (.receive n datagram) = some t' ∧ call.transactionID ∉ t'.scrapeQueue.cache.data ∧
      if call.infoHashes.length ≤ 170 then
        t'.link.conn = t.link.conn ∧ t'.link.connectionID = t.link.connectionID ∧ t'.sending = t.sending ++
          [⟨n,ticket.call,datagram,call.infoHashes.map (fun infoHash => ⟨counts infoHash,infoHash⟩)⟩]
      else t'.link.conn = none ∧ (t.link.conn.isSome → t'.link.connectionID = 0) ∧ t'.sending = t.sending := by
  have hserved := reach_served ht
  obtain rfl : scrapeAnswer counts call.transactionID call.infoHashes = datagram :=
    Option.some.inj ((hserved.answerTo_call hcall).symm.trans hanswer)
  obtain ⟨-,hhashes⟩ := hserved.ticket_hashes hcall hget
  have hmem : call.transactionID ∈ t.scrapeQueue.cache.data := by
    obtain ⟨entry,hentry,-⟩ := Option.map_eq_some_iff.mp hget
    exact AList.lookup_isSome.mp (by rw [hentry]; rfl)
  obtain ⟨k,tokens,htokens⟩ := List.exists_cons_of_ne_nil (hserved.tracked.metered.tokens_ne_nil hmem)
  obtain ⟨timers,hdelete⟩ := LRWCache.delete_present hmem htokens
  have hremove := @AList.mem_erase _ _ _ call.transactionID call.transactionID t.scrapeQueue.cache.data
  have hread := readResults_take counts call.infoHashes
  rw [step,receive_scrapeAnswer,handleScrape_queued _ _ hdelete hget,hhashes,hread]
  by_cases hfits : call.infoHashes.length ≤ 170
  · simp only [if_pos hfits,UDPTracker.linkTurn,step_scraped hrunning hreading,Option.map_some]
    exact ⟨_,rfl,fun h => (hremove.mp h).1 rfl,rfl,rfl,rfl⟩
  · simp only [if_neg hfits,UDPTracker.linkTurn,step_fail hrunning hreading,Option.map_some]
    obtain ⟨hconn,hid⟩ := conn_disconnect t.link
    exact ⟨_,rfl,fun h => (hremove.mp h).1 rfl,hconn,hid,rfl⟩

theorem queuedCall_answered : ∃ t t', run step (newUDPTracker 30 100) queuedCall = some t ∧
    step t (.receive 0 [0,0,0,2,0,0,0,7,0,0,0,9,0,0,0,1,0,0,0,2]) = some t' ∧
    t'.sending.flatMap Answer.results = [⟨⟨9,1,2⟩,List.replicate 20 9⟩] := by
  have hqueued := Reach.of_guarded queuedCall rfl queuedCall_honest
  obtain ⟨t',hstep,-,-,-,hsending⟩ := honest_answer_fits_iff sampleCounts 30 100 _ hqueued _ List.mem_cons_self _ rfl
    [0,0,0,2,0,0,0,7,0,0,0,9,0,0,0,1,0,0,0,2] (by decide +kernel) 0 0 rfl rfl
  refine ⟨_,t',rfl,hstep,?_⟩
  rw [hsending]
  decide +kernel

end DhtOcean.Scrape
