import DhtOcean.Crawler.Progress
import DhtOcean.Krpc.Exchange
import Mathlib.Algebra.Order.Group.Multiset
import Mathlib.Data.Multiset.Bind

/-! # Where the messages of the pipeline come from

What the goroutines send balances what they have taken, in every interleaving and
for every traffic. No datagram is lost between the socket and a handler or handled
twice, every query is answered by the packets that its handler queued alone, and
each announcement leads to one download at most.
-/
namespace DhtOcean.Pipeline
open Foundation Bencode Krpc Network

section Ledger
variable {cfg : Config} {β : Type} {r : Multiset β → Multiset β → Prop}

/-- A list of entries for each message. -/
abbrev Entries (β : Type) := (c : Chan) → Message c → List β

def Entries.value (f : Entries β) (c : Chan) (m : Message c) : Multiset β := (f c m : Multiset β)

/-- The entries of the messages on all channels. -/
def Entries.all (f : Entries β) (msgs : (c : Chan) → List (Message c)) : List β :=
  (msgs .socket).flatMap (f .socket) ++ ((msgs .tick).flatMap (f .tick) ++
    ((msgs .rawPackets).flatMap (f .rawPackets) ++ ((msgs .decodedPackets).flatMap (f .decodedPackets) ++
    ((msgs .neighbours).flatMap (f .neighbours) ++ ((msgs .outPackets).flatMap (f .outPackets) ++
    ((msgs .uncheckedChan).flatMap (f .uncheckedChan) ++ (msgs .tasks).flatMap (f .tasks)))))))

theorem sum_map_coe {α : Type} (f : α → List β) (l : List α) :
    (l.map fun a => (f a : Multiset β)).sum = (l.flatMap f : List β) := by
  induction l with
  | nil => rfl
  | cons a l ih => rw [List.map_cons,List.sum_cons,ih,List.flatMap_cons,← Multiset.coe_add]

theorem total_entries (f : Entries β) (msgs : (c : Chan) → List (Message c)) : total f.value msgs = (f.all msgs : List β) := by
  have hsum : ∀ c, ((msgs c).map (f.value c)).sum = ((msgs c).flatMap (f c) : List β) := fun c => sum_map_coe (f c) (msgs c)
  rw [total,sum_chan]
  simp only [hsum,Entries.all,← Multiset.coe_add]

theorem flatMap_nothing {α β : Type} (l : List α) : l.flatMap (fun _ => ([] : List β)) = [] :=
  List.flatMap_eq_nil_iff.mpr fun _ _ => rfl

/-- A network whose bodies emit what is due for their messages. -/
structure Pays (cfg : Config) (r : Multiset β → Multiset β → Prop) (sent due : Entries β) : Prop where
  stable : AddStable r
  body : ∀ c m, ((network cfg).body c m).Emits r sent.value (due.value c m)
  source : ∀ c, (network cfg).source c = true → ∀ m, sent c m = []

variable {sent due : Entries β} {ok : (c : Chan) → Message c → Prop} {s : NetState (Goroutine cfg) Message Answer}

theorem Pays.balanced (h : Pays cfg r sent due) (hs : (network cfg).Reaches ok .start s) :
    Balanced r sent.value due.value s := by
  refine (balanced_start h.stable).reaches h.stable h.body (fun c hc m => ?_) hs
  rw [Entries.value,h.source c hc m]
  rfl

/-- What was sent is due. -/
theorem Pays.subperm (h : Pays cfg r sent due) (hle : ∀ {a b}, r a b → a ≤ b)
    (hs : (network cfg).Reaches ok .start s) : (sent.all s.put).Subperm (due.all s.taken) := by
  obtain ⟨pending,-,hbal⟩ := h.balanced hs
  rw [total_entries,total_entries] at hbal
  exact Multiset.coe_le.mp ((Multiset.le_add_right _ _).trans (hle hbal))

/-- The balance once nothing is left to do. -/
theorem Pays.idle (h : Pays cfg r sent due) (hs : (network cfg).Reaches ok .start s) (hidle : s.Idle) :
    r (sent.all s.taken : List β) (due.all s.taken : List β) := by
  have hbal := (h.balanced hs).idle h.stable hidle
  rwa [total_entries,total_entries] at hbal

end Ledger

section Edges
variable {cfg : Config}

/-- The channels that the loops of a channel send on. -/
def edge : Chan → Chan → Bool
  | .socket, .rawPackets => true
  | .tick, .neighbours => true
  | .rawPackets, .decodedPackets => true
  | .decodedPackets, .neighbours => true
  | .decodedPackets, .outPackets => true
  | .decodedPackets, .uncheckedChan => true
  | .decodedPackets, .tasks => true
  | .neighbours, .outPackets => true
  | .uncheckedChan, .tasks => true
  | _, _ => false

theorem sends_ofCall {α : Type} {x : Call α} {next : α → Body} {ok : (c : Chan) → Message c → Prop}
    (h : ∀ a, (next a).Sends ok) : (ofCall x next).Sends ok := by
  cases x with
  | ok a => exact h a
  | error e => cases e
  | panic q => trivial
  | hang => trivial

theorem network_sends (c : Chan) (m : Message c) :
    ((network cfg).body c m).Sends fun d _ => edge c d = true := by
  cases c with
  | socket => exact ⟨rfl,trivial⟩
  | tick =>
    intro n
    dsimp only
    split
    · exact (keeps_sendNodes fun _ _ => rfl).sends
    · trivial
  | rawPackets =>
    change (decodeLoop m).Sends _
    unfold decodeLoop
    split
    · exact ⟨rfl,trivial⟩
    all_goals trivial
  | decodedPackets =>
    obtain ⟨task,hbody,-,-⟩ := exists_task cfg m m.addr
    change (onMessage cfg m m.addr).Sends _
    rw [hbody]
    cases task with
    | fail => trivial
    | nodes mem ns => exact (keeps_findNode fun _ _ => rfl).sends
    | reply pkts => exact (@keeps_sendAll _ pkts .done (fun _ => rfl) trivial).sends
    | fetch pkts req => exact (keeps_sendAll (fun _ => rfl) (keeps_push rfl rfl)).sends
  | neighbours =>
    intro _
    exact sends_ofCall fun _ _ => (@keeps_sendPacket _ _ _ _ .done (fun _ => rfl) trivial).sends
  | outPackets =>
    change (sendLoop m).Sends _
    unfold sendLoop
    split
    · trivial
    · split
      · trivial
      · exact fun _ => trivial
  | uncheckedChan =>
    intro result
    cases result with
    | found => trivial
    | noDocuments => exact (keeps_commit rfl).sends
    | failed => trivial
  | tasks => exact fun _ => trivial

theorem sends_mono {ok ok' : (c : Chan) → Message c → Prop} (h : ∀ c m, ok c m → ok' c m) {prog : Body}
    (hp : prog.Sends ok) : prog.Sends ok' := by
  induction prog with
  | done => trivial
  | send c m next ih => exact ⟨h c m hp.1,ih hp.2⟩
  | peek c next ih => exact fun n => ih n (hp n)
  | ask q next ih => exact fun a => ih a (hp a)
  | crash => trivial
  | exit => trivial

variable {β : Type} {r : Multiset β → Multiset β → Prop} {sent : Entries β}

/-- The loops of a channel without an edge to one that counts emit nothing. -/
theorem emits_nothing (hr : AddStable r) {c : Chan} (h : ∀ d, edge c d = true → ∀ m, sent d m = []) (m : Message c) :
    ((network cfg).body c m).Emits r sent.value 0 := by
  refine emits_zero hr (sends_mono (fun d n hd => ?_) (network_sends c m))
  rw [Entries.value,h d hd n]
  rfl

end Edges

section Replies

/-- A crawler that has queued nothing yet. -/
def blank (cfg : Config) : Crawler := ⟨cfg.nodeID,cfg.maxQueueSize,[],.newLRWCache 0 0 false,[],[]⟩

/-- The packets with which a handler alone answers a packet. -/
def replies (cfg : Config) (p : Packet AddrPort) : List OutPacket :=
  match Krpc.onMessage (blank cfg) p p.addr with
  | .ok c => c.outPackets
  | _ => []

/-- The downloads that a handler alone asks for. -/
def pushes (cfg : Config) (p : Packet AddrPort) : List TorrentRequest :=
  match Krpc.onMessage (blank cfg) p p.addr with
  | .ok c => c.requests
  | _ => []

theorem findNode_sends_nothing {mem : Bytes} {c c' : Crawler} {nodes : List Node}
    (h : Krpc.onFindNodeResponse mem c nodes = .ok c') : c'.outPackets = c.outPackets ∧ c'.requests = c.requests := by
  induction nodes generalizing c with
  | nil =>
    cases h
    exact ⟨rfl,rfl⟩
  | cons node nodes ih =>
    rw [Krpc.onFindNodeResponse] at h
    split at h
    · cases h
      exact ⟨rfl,rfl⟩
    · split at h
      · split at h
        · exact ih h
        · split at h
          · cases h
          · have hrest := ih h
            exact hrest
      · exact ih h

def Task.packets : Task → List OutPacket
  | reply pkts => pkts
  | fetch pkts _ => pkts
  | _ => []

def Task.requests : Task → List TorrentRequest
  | fetch _ req => [req]
  | _ => []

/-- What the task of a handler sends is what the handler alone queues. -/
theorem Task.Agrees.sends {cfg : Config} {p : Packet AddrPort} {task : Task} {prog : Body}
    (h : task.Agrees cfg p prog (Krpc.onMessage · p p.addr)) :
    replies cfg p = task.packets ∧ pushes cfg p = task.requests := by
  have hd : task.Describes (blank cfg) (Krpc.onMessage (blank cfg) p p.addr) := h.alone (blank cfg) rfl
  unfold replies pushes
  cases task with
  | fail =>
    obtain ⟨q,hq⟩ := hd
    rw [hq]
    exact ⟨rfl,rfl⟩
  | nodes mem ns =>
    rw [show Krpc.onMessage (blank cfg) p p.addr = _ from hd]
    cases hn : Krpc.onFindNodeResponse mem (blank cfg) ns with
    | ok c' => exact findNode_sends_nothing hn
    | _ => exact ⟨rfl,rfl⟩
  | reply pkts =>
    rw [show Krpc.onMessage (blank cfg) p p.addr = _ from hd]
    exact ⟨rfl,rfl⟩
  | fetch pkts req =>
    rw [show Krpc.onMessage (blank cfg) p p.addr = _ from hd]
    exact ⟨rfl,rfl⟩

/-- The program of a handler that answers. -/
theorem handlerLoop_eq {cfg : Config} {p : Packet AddrPort} (h : replies cfg p ≠ []) :
    handlerLoop cfg p = sendAll (replies cfg p) ((pushes cfg p).head?.elim .done (push cfg)) := by
  obtain ⟨task,hagrees⟩ := exists_task cfg p p.addr
  rw [hagrees.sends.1] at h
  rw [handlerLoop,hagrees.body,hagrees.sends.1,hagrees.sends.2]
  cases task with
  | fail => exact absurd rfl h
  | nodes mem ns => exact absurd rfl h
  | reply pkts => rfl
  | fetch pkts req => rfl

variable {cfg : Config} {β : Type} {r : Multiset β → Multiset β → Prop} {sent : Entries β}

theorem emits_sendAll (hr : AddStable r) {next : Body} {x : Multiset β} (pkts : List OutPacket)
    (h : next.Emits r sent.value x) :
    (sendAll pkts next).Emits r sent.value ((pkts.flatMap (sent .outPackets) : List β) + x) := by
  induction pkts with
  | nil => simpa only [sendAll,List.flatMap_nil,Multiset.coe_nil,zero_add] using h
  | cons pkt pkts ih =>
    refine ⟨_,ih,?_⟩
    rw [List.flatMap_cons,← Multiset.coe_add,add_assoc]
    exact hr.refl _

theorem emits_findNode (hr : AddStable r) (hsent : ∀ n, sent .neighbours n = []) (mem : Bytes) (ns : List Node) :
    (onFindNodeResponse cfg mem ns).Emits r sent.value 0 := by
  refine emits_zero hr (keeps_findNode fun node _ => ?_).sends
  rw [Entries.value,hsent]
  rfl

/-- Where only packets count, a handler emits the packets that answer its packet. -/
theorem emits_replies (hr : AddStable r) (hnodes : ∀ n, sent .neighbours n = [])
    (hunchecked : ∀ req, sent .uncheckedChan req = []) (htasks : ∀ req, sent .tasks req = []) (p : Packet AddrPort) :
    (handlerLoop cfg p).Emits r sent.value ((replies cfg p).flatMap (sent .outPackets) : List β) := by
  obtain ⟨task,hagrees⟩ := exists_task cfg p p.addr
  rw [handlerLoop,hagrees.body,hagrees.sends.1]
  cases task with
  | fail => exact hr.refl 0
  | nodes mem ns => exact emits_findNode hr hnodes mem ns
  | reply pkts =>
    have h := emits_sendAll hr pkts (show Prog.done.Emits r sent.value 0 from hr.refl 0)
    rwa [add_zero] at h
  | fetch pkts req =>
    have hpush : (push cfg req).Emits r sent.value 0 := by
      refine emits_zero hr (keeps_push ?_ ?_).sends
      · rw [Entries.value,hunchecked]
        rfl
      · rw [Entries.value,htasks]
        rfl
    have h := emits_sendAll hr pkts hpush
    rwa [add_zero] at h

end Replies

section Sample
variable {ok : (c : Chan) → Message c → Prop} {taken : (c : Chan) → List (Message c)} {text w : Bytes}
  {p : Packet AddrPort} {next : Body}

theorem sole_ne {c c' : Chan} (h : c ≠ c') : sole c ≠ sole c' := fun he => h (congrArg Sigma.fst he)

/-- A datagram that arrives while nobody is busy is passed on to the handler. -/
theorem carried (h : (network sampleConfig).Reaches ok .start (solo taken (sole .decodedPackets) .done))
    (hok : ok .socket (text,localPeer)) (hdecode : (newPacketFromBuffer text localPeer).decode = .ok p) :
    (network sampleConfig).Reaches ok .start (solo (noted (noted (noted taken .socket (text,localPeer)) .rawPackets
      (newPacketFromBuffer text localPeer)) .decodedPackets p) (sole .decodedPackets) (handlerLoop sampleConfig p)) := by
  have hraw : (network sampleConfig).Reaches ok .start (solo (noted (noted taken .socket (text,localPeer)) .rawPackets
      (newPacketFromBuffer text localPeer)) (sole .rawPackets) (decodeLoop (newPacketFromBuffer text localPeer))) :=
    (h.arrive (sole .socket) (text,localPeer) rfl Nat.one_pos hok).pass (q := sole .rawPackets) (sole_ne nofun)
  rw [decodeLoop,hdecode] at hraw
  exact hraw.pass (q := sole .decodedPackets) (sole_ne nofun)

/-- The packet is written to the socket. -/
theorem sent_out {c : Chan} (hc : c ≠ .outPackets)
    (h : (network sampleConfig).Reaches ok .start (solo taken (sole c) (.send .outPackets ⟨w,localPeer⟩ next))) :
    (network sampleConfig).Reaches ok .start (solo (noted taken .outPackets ⟨w,localPeer⟩) (sole c) next) := by
  have hwrite : sendLoop ⟨w,localPeer⟩ = .ask (.write ⟨w,localPeer⟩) fun _ => .done := by
    rw [sendLoop,parseAddrPort_text]
    rfl
  exact h.settle (q := sole .outPackets) (sole_ne hc.symm) hwrite ()

theorem replies_of_handled {reqs : List TorrentRequest} (hdecode : (newPacketFromBuffer text localPeer).decode = .ok p)
    (hmessage : Krpc.onMessage (blank sampleConfig) p localPeer =
      .ok { blank sampleConfig with outPackets := [⟨w,localPeer⟩], requests := reqs }) :
    replies sampleConfig p = [⟨w,localPeer⟩] ∧ pushes sampleConfig p = reqs := by
  have haddr : p.addr = localPeer := (decode_keeps hdecode).2
  rw [replies,pushes,haddr,hmessage]
  exact ⟨rfl,rfl⟩

/-- A query is handled up to the download that it may ask for. -/
theorem answered {reqs : List TorrentRequest}
    (h : (network sampleConfig).Reaches Harmless .start (solo taken (sole .decodedPackets) .done))
    (hdecode : (newPacketFromBuffer text localPeer).decode = .ok p)
    (hmessage : Krpc.onMessage (blank sampleConfig) p localPeer =
      .ok { blank sampleConfig with outPackets := [⟨w,localPeer⟩], requests := reqs }) :
    (network sampleConfig).Reaches Harmless .start (solo (noted (noted (noted (noted taken .socket (text,localPeer))
      .rawPackets (newPacketFromBuffer text localPeer)) .decodedPackets p) .outPackets ⟨w,localPeer⟩)
      (sole .decodedPackets) (reqs.head?.elim .done (push sampleConfig))) := by
  obtain ⟨hreplies,hpushes⟩ := replies_of_handled hdecode hmessage
  have hrun := carried h (harmless_of_handled (c := blank sampleConfig) rfl hdecode hmessage) hdecode
  rw [handlerLoop_eq (by rw [hreplies]; exact List.cons_ne_nil _ _),hreplies,hpushes] at hrun
  exact sent_out nofun hrun

/-- The two queries have been handled one after the other, and nothing is left to do. -/
structure Served (s : SampleState) (p p' : Packet AddrPort) (w w' : Bytes) (req : TorrentRequest) : Prop where
  reached : (network sampleConfig).Reaches Harmless .start s
  idle : s.Idle
  datagrams : s.taken .socket = [(getPeersText,localPeer),(announceText,localPeer)]
  handled : s.taken .decodedPackets = [p,p']
  replies : replies sampleConfig p = [⟨w,localPeer⟩] ∧ replies sampleConfig p' = [⟨w',localPeer⟩]
  sent : s.taken .outPackets = [⟨w,localPeer⟩,⟨w',localPeer⟩]
  pushes : pushes sampleConfig p = [] ∧ pushes sampleConfig p' = [req]
  tasks : s.taken .tasks = [req]
  reply : Means w (response (ascii "x") [(ascii "id",.bytes (ascii "bbbbbbbbbb" ++ List.replicate 10 0)),
    (ascii "nodes",.bytes []),(ascii "token",.bytes (ascii "bbbbbbbbbb" ++ List.replicate 10 0))])
  infoHash : req.infoHash = ascii "bbbbbbbbbbbbbbbbbbbb"

theorem exists_served : ∃ s p p' w w' req, Served s p p' w w' req := by
  obtain ⟨p,t,m,hdecode,hq,htid,hargs⟩ := (sampleEntries_asks _).query_of_means getPeersText_means localPeer
  obtain ⟨p',t',m',hdecode',hq',-,hargs'⟩ := (sampleEntries_asks _).query_of_means announceText_means localPeer
  obtain ⟨h,hh,hhash⟩ := hargs (ascii "info_hash") (ascii "bbbbbbbbbbbbbbbbbbbb") rfl
  obtain ⟨h',hh',hhash'⟩ := hargs' (ascii "info_hash") (ascii "bbbbbbbbbbbbbbbbbbbb") rfl
  obtain ⟨id,hid,hidread⟩ := hargs' (ascii "id") (ascii "aaaaaaaaaaaaaaaaaaaa") rfl
  have hlen : ∀ {s : Slice} {buf b : Bytes}, s.read buf = b → b.length = 20 → 20 ≤ s.length :=
    fun hread hb => hb ▸ hread ▸ length_read_le _ _
  obtain ⟨w,hmessage,hmeans⟩ := hq.getPeers (c := blank sampleConfig) hdecode rfl (by decide +kernel) hh
    (hlen hhash (by decide))
  obtain ⟨w',hmessage',-⟩ := hq'.announcePeer (c := blank sampleConfig) hdecode' rfl (by decide +kernel) hid
    (hlen hidread (by decide)) hh'
  have hstart : (network sampleConfig).Reaches Harmless .start
      (solo (fun _ => []) (sole .decodedPackets) .done) := by
    rw [← start_eq_solo]
    exact .refl
  have hpushed := answered (answered hstart hdecode hmessage) hdecode' hmessage'
  -- The filter does not know the hash, and the queue of tasks is empty.
  have hqueued := (hpushed.reply false).look
  have hdone := hqueued.settle (q := sole .tasks) (sole_ne nofun) rfl ()
  rw [htid,hhash] at hmeans
  obtain ⟨hreplies,hpushes⟩ := replies_of_handled hdecode hmessage
  obtain ⟨hreplies',hpushes'⟩ := replies_of_handled hdecode' hmessage'
  exact ⟨_,p,p',w,w',_,hdone,idle_solo,rfl,rfl,⟨hreplies,hreplies'⟩,rfl,⟨hpushes,hpushes'⟩,rfl,hmeans,hhash'⟩

end Sample

section Datagrams
variable {cfg : Config} {s : NetState (Goroutine cfg) Message Answer}

/-- What a decoder passes on. -/
def decodes (p : Packet AddrPort) : Option (Packet AddrPort) :=
  match p.decode with
  | .ok p' => some p'
  | _ => none

def decodedDatagram (datagram : Bytes × AddrPort) : Option (Packet AddrPort) :=
  decodes (newPacketFromBuffer datagram.1 datagram.2)

def rawSent : Entries (Packet AddrPort)
  | .rawPackets, p => [p]
  | _, _ => []

def rawDue : Entries (Packet AddrPort)
  | .socket, datagram => [newPacketFromBuffer datagram.1 datagram.2]
  | _, _ => []

theorem raw_pays (cfg : Config) : Pays cfg Eq rawSent rawDue where
  stable := addStable_eq
  body c m := by
    cases c with
    | socket => exact ⟨0,rfl,rfl⟩
    | _ => exact emits_nothing addStable_eq (by intro d hd n; cases d <;> first | rfl | cases hd) m
  source c hc m := by
    cases c <;> first | rfl | cases hc

def decodedSent : Entries (Packet AddrPort)
  | .decodedPackets, p => [p]
  | _, _ => []

def decodedDue : Entries (Packet AddrPort)
  | .rawPackets, p => (decodes p).toList
  | _, _ => []

theorem decoded_pays (cfg : Config) : Pays cfg Eq decodedSent decodedDue where
  stable := addStable_eq
  body c m := by
    cases c with
    | rawPackets =>
      change (decodeLoop m).Emits Eq _ ((decodes m).toList : Multiset (Packet AddrPort))
      unfold decodeLoop decodes
      cases m.decode with
      | ok p' => exact ⟨0,rfl,rfl⟩
      | error e => rfl
      | panic q => rfl
      | hang => rfl
    | _ => exact emits_nothing addStable_eq (by intro d hd n; cases d <;> first | rfl | cases hd) m
  source c hc m := by
    cases c <;> first | rfl | cases hc

theorem rawSent_all (msgs : (c : Chan) → List (Message c)) : rawSent.all msgs = msgs .rawPackets := by
  unfold Entries.all rawSent
  simp [flatMap_nothing]

theorem rawDue_all (msgs : (c : Chan) → List (Message c)) :
    rawDue.all msgs = (msgs .socket).map fun datagram => newPacketFromBuffer datagram.1 datagram.2 := by
  unfold Entries.all rawDue
  simp [flatMap_nothing,← List.map_eq_flatMap]

theorem decodedSent_all (msgs : (c : Chan) → List (Message c)) : decodedSent.all msgs = msgs .decodedPackets := by
  unfold Entries.all decodedSent
  simp [flatMap_nothing]

theorem decodedDue_all (msgs : (c : Chan) → List (Message c)) : decodedDue.all msgs = (msgs .rawPackets).filterMap decodes := by
  unfold Entries.all decodedDue
  simp [flatMap_nothing,List.filterMap_eq_flatMap_toList]

/-- No datagram is handled more often than it arrived, and when all work is done each one that
can be decoded was handled. -/
theorem datagrams_handled_once (cfg : Config) (s : NetState (Goroutine cfg) Message Answer)
    (hs : (network cfg).Reaches (fun _ _ => True) .start s) :
    (s.put .decodedPackets).Subperm ((s.taken .socket).filterMap decodedDatagram) ∧
    (s.Idle → (s.taken .decodedPackets).Perm ((s.put .socket).filterMap decodedDatagram)) := by
  have hcomp : ∀ l : List (Bytes × AddrPort),
      (l.map fun datagram => newPacketFromBuffer datagram.1 datagram.2).filterMap decodes =
        l.filterMap decodedDatagram := fun l => List.filterMap_map
  constructor
  · have hraw := (raw_pays cfg).subperm le_of_eq hs
    have hdecoded := (decoded_pays cfg).subperm le_of_eq hs
    rw [rawSent_all,rawDue_all] at hraw
    rw [decodedSent_all,decodedDue_all] at hdecoded
    rw [← hcomp]
    refine hdecoded.trans ?_
    have htaken : (s.taken .rawPackets).Subperm (s.put .rawPackets) := (List.sublist_append_left _ _).subperm
    obtain ⟨l,hperm,hsub⟩ := htaken.trans hraw
    exact ⟨l.filterMap decodes,hperm.filterMap decodes,hsub.filterMap decodes⟩
  · intro hidle
    have hput : s.put .socket = s.taken .socket := by rw [NetState.put,hidle.empty,List.append_nil]
    have hraw := Multiset.coe_eq_coe.mp ((raw_pays cfg).idle hs hidle)
    have hdecoded := Multiset.coe_eq_coe.mp ((decoded_pays cfg).idle hs hidle)
    rw [rawSent_all,rawDue_all] at hraw
    rw [decodedSent_all,decodedDue_all] at hdecoded
    rw [hput,← hcomp]
    exact hdecoded.trans (hraw.filterMap decodes)

theorem queries_handled_once : ∃ s p p' w w' req, Served s p p' w w' req ∧
    (s.put .decodedPackets).Subperm ((s.taken .socket).filterMap decodedDatagram) ∧
    [p,p'].Perm ([(getPeersText,localPeer),(announceText,localPeer)].filterMap decodedDatagram) := by
  obtain ⟨s,p,p',w,w',req,h⟩ := exists_served
  obtain ⟨hsub,hperm⟩ := datagrams_handled_once sampleConfig s (h.reached.mono fun _ _ _ => trivial)
  have hall := hperm h.idle
  rw [h.handled,NetState.put,h.idle.empty,List.append_nil,h.datagrams] at hall
  exact ⟨s,p,p',w,w',req,h,hsub,hall⟩

end Datagrams

section Answers
variable {cfg : Config}

/-- Packets to be sent count by themselves, and those that answer a query are due. -/
def replySent : Entries OutPacket
  | .outPackets, pkt => [pkt]
  | _, _ => []

def replyDue (cfg : Config) : Entries OutPacket
  | .decodedPackets, p => replies cfg p
  | _, _ => []

theorem addStable_ge {β : Type} : AddStable ((· ≥ ·) : Multiset β → Multiset β → Prop) :=
  ⟨le_refl,fun hab hbc => hbc.trans hab,fun c hab => add_le_add_right hab c⟩

theorem emits_ge_zero {β : Type} {value : (c : Chan) → Message c → Multiset β} (prog : Body) :
    prog.Emits (· ≥ ·) value 0 := by
  induction prog with
  | done => exact le_rfl
  | send c m next ih => exact ⟨0,ih,Multiset.zero_le _⟩
  | peek c next ih => exact ih
  | ask q next ih => exact ih
  | crash => exact le_rfl
  | exit => exact le_rfl

theorem replies_pay (cfg : Config) : Pays cfg (· ≥ ·) replySent (replyDue cfg) where
  stable := addStable_ge
  body c m := by
    cases c with
    | decodedPackets =>
      have h := @emits_replies cfg _ _ replySent addStable_ge (fun _ => rfl) (fun _ => rfl) (fun _ => rfl) m
      rwa [show replySent .outPackets = fun pkt => [pkt] from rfl,List.flatMap_singleton'] at h
    | _ => exact emits_ge_zero _
  source c hc m := by
    cases c <;> first | rfl | cases hc

/-- The addresses that a node is asked at: none if its ID is too short. -/
def asked (cfg : Config) (n : Neighbour) : List AddrPort :=
  match getNeighbourID n.mem n.node.nodeID cfg.nodeID with
  | .ok _ => [n.node.addr]
  | _ => []

def addrSent : Entries AddrPort
  | .outPackets, pkt => [pkt.addr]
  | _, _ => []

def addrDue (cfg : Config) : Entries AddrPort
  | .decodedPackets, p => (replies cfg p).map OutPacket.addr
  | .neighbours, n => asked cfg n
  | _, _ => []

theorem encodeEntries_ok {m : List (Bytes × Except EncodeError Bytes)} (h : ∀ e ∈ m, ∃ w, e.2 = .ok w) :
    ∃ w, encodeEntries m = .ok w := by
  induction m with
  | nil => exact ⟨[],rfl⟩
  | cons e m ih =>
    obtain ⟨⟨w,hw⟩,hm⟩ := List.forall_mem_cons.mp h
    obtain ⟨ws,hws⟩ := ih hm
    obtain ⟨k,v⟩ := e
    cases hw
    exact ⟨encodeString k ++ w ++ ws,by rw [encodeEntries,hws]; rfl⟩

theorem encodeMap_ok {m : List (Bytes × Except EncodeError Bytes)} (h : ∀ e ∈ m, ∃ w, e.2 = .ok w) :
    ∃ w, encodeMap m = .ok w := by
  obtain ⟨w,hw⟩ := encodeEntries_ok fun e he => h e (KeyMap.mem_listed he)
  exact ⟨_,by rw [encodeMap,hw]; rfl⟩

/-- A find_node request can always be encoded. -/
theorem packets_findNode (mem : Bytes) (nodeID : Slice) (target tid : Bytes) (addr : AddrPort) :
    ∃ w, packets mem (setT (newFindNodeRequest nodeID target) (.owned tid)) addr = [⟨w,addr⟩] := by
  have harguments : ∃ w, encodeAny (.map [(ascii "id",.bytes (nodeID.read mem)),(ascii "target",.bytes target)]) = .ok w :=
    encodeMap_ok (by simp [encodeValues,encodeAny])
  obtain ⟨w,hw⟩ := @encodeMap_ok (encodeValues [(ascii "y",.str (ascii "q")),(ascii "q",.str (ascii "find_node")),
    (ascii "a",.map [(ascii "id",.bytes (nodeID.read mem)),(ascii "target",.bytes target)]),(ascii "t",.bytes tid)]) <| by
    intro e he
    simp only [encodeValues,List.mem_cons,List.not_mem_nil,or_false] at he
    rcases he with rfl | rfl | rfl | rfl
    · exact ⟨_,rfl⟩
    · exact ⟨_,rfl⟩
    · exact harguments
    · exact ⟨_,rfl⟩
  refine ⟨w,?_⟩
  have hencode : bEncode (.map (loadEntries (Slice.read mem) (setT (newFindNodeRequest nodeID target) (.owned tid)))) =
      .ok w := hw
  rw [packets,hencode]

theorem addrs_pay (cfg : Config) : Pays cfg Eq addrSent (addrDue cfg) where
  stable := addStable_eq
  body c m := by
    cases c with
    | decodedPackets =>
      have h := @emits_replies cfg _ _ addrSent addStable_eq (fun _ => rfl) (fun _ => rfl) (fun _ => rfl) m
      rwa [show addrSent .outPackets = fun pkt => [pkt.addr] from rfl,← List.map_eq_flatMap] at h
    | neighbours =>
      intro _
      change (ofCall (getNeighbourID m.mem m.node.nodeID cfg.nodeID) _).Emits _ _ (asked cfg m : Multiset AddrPort)
      unfold asked ofCall
      cases getNeighbourID m.mem m.node.nodeID cfg.nodeID with
      | ok call =>
        rintro ⟨target,tid⟩
        obtain ⟨w,hw⟩ := packets_findNode call.2 call.1 target tid m.node.addr
        dsimp only
        rw [sendPacket_eq,hw]
        exact ⟨0,rfl,rfl⟩
      | error e => cases e
      | panic q => rfl
      | hang => rfl
    | _ => exact emits_nothing addStable_eq (by intro d hd n; cases d <;> first | rfl | cases hd) m
  source c hc m := by
    cases c <;> first | rfl | cases hc

theorem replySent_all (msgs : (c : Chan) → List (Message c)) : replySent.all msgs = msgs .outPackets := by
  unfold Entries.all replySent
  simp [flatMap_nothing]

theorem replyDue_all (msgs : (c : Chan) → List (Message c)) :
    (replyDue cfg).all msgs = (msgs .decodedPackets).flatMap (replies cfg) := by
  unfold Entries.all replyDue
  simp [flatMap_nothing]

theorem addrSent_all (msgs : (c : Chan) → List (Message c)) :
    addrSent.all msgs = (msgs .outPackets).map OutPacket.addr := by
  unfold Entries.all addrSent
  simp [flatMap_nothing,← List.map_eq_flatMap]

theorem addrDue_all (msgs : (c : Chan) → List (Message c)) :
    (addrDue cfg).all msgs = (msgs .decodedPackets).flatMap (fun p => (replies cfg p).map OutPacket.addr) ++
      (msgs .neighbours).flatMap (asked cfg) := by
  unfold Entries.all addrDue
  simp [flatMap_nothing]

/-- A node whose ID reaches far enough is asked. -/
theorem asked_eq (hid : cfg.nodeID.length = 20) {n : Neighbour} (hn : 10 ≤ n.node.nodeID.cap n.mem) :
    asked cfg n = [n.node.addr] := by
  unfold asked
  cases hcall : getNeighbourID n.mem n.node.nodeID cfg.nodeID with
  | ok call => rfl
  | error e => cases e
  | panic q =>
    have hpanics : (getNeighbourID n.mem n.node.nodeID cfg.nodeID).Panics := ⟨q,hcall⟩
    rw [getNeighbourID_panics_iff hid] at hpanics
    omega
  | hang => exact absurd hcall (getNeighbourID_ne_hang _ _ _)

/-- When all work is done, every reply that a handler makes has been taken to be sent, and beside
the replies there is just one packet to each node that was queued. -/
theorem replies_all_sent (cfg : Config) (hid : cfg.nodeID.length = 20)
    (s : NetState (Goroutine cfg) Message Answer) (hs : (network cfg).Reaches Harmless .start s) (hidle : s.Idle) :
    ((s.taken .decodedPackets).flatMap (replies cfg)).Subperm (s.taken .outPackets) ∧
    ((s.taken .outPackets).map OutPacket.addr).Perm
      ((s.taken .decodedPackets).flatMap (fun p => (replies cfg p).map OutPacket.addr) ++
        (s.taken .neighbours).map fun n => n.node.addr) := by
  have hsane := (sane_start (network cfg) Harmless rank).reaches (network_layered hid) hs
  constructor
  · have h := (replies_pay cfg).idle hs hidle
    rw [replySent_all,replyDue_all] at h
    exact Multiset.coe_le.mp h
  · have h := Multiset.coe_eq_coe.mp ((addrs_pay cfg).idle hs hidle)
    rw [addrSent_all,addrDue_all] at h
    have hasked : (s.taken .neighbours).flatMap (asked cfg) = (s.taken .neighbours).map fun n => n.node.addr := by
      rw [List.map_eq_flatMap]
      exact List.flatMap_congr fun n hn => asked_eq hid (hsane.taken .neighbours n hn)
    rwa [hasked] at h

theorem queries_answered : ∃ s p p' w w' req, Served s p p' w w' req ∧
    ((s.taken .decodedPackets).flatMap (replies sampleConfig)).Subperm (s.taken .outPackets) ∧
    ((s.taken .outPackets).map OutPacket.addr).Perm
      ((s.taken .decodedPackets).flatMap (fun p => (replies sampleConfig p).map OutPacket.addr) ++
        (s.taken .neighbours).map fun n => n.node.addr) := by
  obtain ⟨s,p,p',w,w',req,h⟩ := exists_served
  exact ⟨s,p,p',w,w',req,h,replies_all_sent sampleConfig rfl s h.reached h.idle⟩

end Answers

section Downloads
variable {cfg : Config}

def requestSent : Entries TorrentRequest
  | .uncheckedChan, req => [req]
  | .tasks, req => [req]
  | _, _ => []

def requestDue (cfg : Config) : Entries TorrentRequest
  | .decodedPackets, p => pushes cfg p
  | .uncheckedChan, req => [req]
  | _, _ => []

theorem emits_commit (req : TorrentRequest) : (commit cfg req).Emits (· ≤ ·) requestSent.value {req} := by
  intro n
  dsimp only
  split
  · exact Multiset.zero_le _
  · exact ⟨0,le_rfl,by rw [add_zero]; exact le_rfl⟩

theorem emits_push (req : TorrentRequest) : (push cfg req).Emits (· ≤ ·) requestSent.value {req} := by
  intro exist
  cases exist with
  | true => exact ⟨0,le_rfl,by rw [add_zero]; exact le_rfl⟩
  | false => exact emits_commit req

theorem requests_pay (cfg : Config) : Pays cfg (· ≤ ·) requestSent (requestDue cfg) where
  stable := addStable_le
  body c m := by
    cases c with
    | decodedPackets =>
      obtain ⟨task,hagrees⟩ := exists_task cfg m m.addr
      change (onMessage cfg m m.addr).Emits _ _ (pushes cfg m : Multiset TorrentRequest)
      rw [hagrees.body,hagrees.sends.2]
      cases task with
      | fail => exact le_rfl
      | nodes mem ns => exact emits_findNode addStable_le (fun _ => rfl) mem ns
      | reply pkts => exact emits_zero addStable_le (@keeps_sendAll _ pkts .done (fun _ => rfl) trivial).sends
      | fetch pkts req =>
        have h := emits_sendAll addStable_le pkts (@emits_push cfg req)
        rwa [show requestSent .outPackets = fun _ => [] from rfl,flatMap_nothing,Multiset.coe_nil,zero_add] at h
    | uncheckedChan =>
      intro result
      cases result with
      | found => exact Multiset.zero_le _
      | noDocuments => exact emits_commit m
      | failed => exact Multiset.zero_le _
    | _ => exact emits_nothing addStable_le (by intro d hd n; cases d <;> first | rfl | cases hd) m
  source c hc m := by
    cases c <;> first | rfl | cases hc

theorem requestSent_all (msgs : (c : Chan) → List (Message c)) :
    requestSent.all msgs = msgs .uncheckedChan ++ msgs .tasks := by
  unfold Entries.all requestSent
  simp [flatMap_nothing]

theorem requestDue_all (msgs : (c : Chan) → List (Message c)) :
    (requestDue cfg).all msgs = (msgs .decodedPackets).flatMap (pushes cfg) ++ msgs .uncheckedChan := by
  unfold Entries.all requestDue
  simp [flatMap_nothing]

/-- Of the requests that handlers push, each leads to one task at most: what was ever queued as a
task and what still waits for the check were all asked for. -/
theorem downloads_requested_once (cfg : Config) (s : NetState (Goroutine cfg) Message Answer)
    (hs : (network cfg).Reaches (fun _ _ => True) .start s) :
    (s.put .tasks ++ s.queue .uncheckedChan).Subperm ((s.taken .decodedPackets).flatMap (pushes cfg)) := by
  have h := Multiset.coe_le.mpr ((requests_pay cfg).subperm id hs)
  rw [requestSent_all,requestDue_all,← Multiset.coe_add,← Multiset.coe_add,NetState.put,← Multiset.coe_add] at h
  refine Multiset.coe_le.mp (le_of_add_le_add_left (a := (s.taken .uncheckedChan : Multiset TorrentRequest)) ?_)
  rw [← Multiset.coe_add,add_comm (s.put .tasks : Multiset TorrentRequest),← add_assoc,
    add_comm (s.taken .uncheckedChan : Multiset TorrentRequest) ((s.taken .decodedPackets).flatMap (pushes cfg) : List _)]
  exact h

theorem announced_downloaded : ∃ s p p' w w' req, Served s p p' w w' req ∧
    (s.put .tasks ++ s.queue .uncheckedChan).Subperm ((s.taken .decodedPackets).flatMap (pushes sampleConfig)) := by
  obtain ⟨s,p,p',w,w',req,h⟩ := exists_served
  exact ⟨s,p,p',w,w',req,h,downloads_requested_once sampleConfig s (h.reached.mono fun _ _ _ => trivial)⟩

end Downloads

section Nodes
variable {cfg : Config}

/-- The nodes that a response names. -/
def named (p : Packet AddrPort) : List Neighbour :=
  match newFindNodeResponse p with
  | .ok (some res) => res.nodes.map (Neighbour.mk p.buf)
  | _ => []

def nodeSent : Entries Neighbour
  | .neighbours, n => [n]
  | _, _ => []

def nodeDue (cfg : Config) : Entries Neighbour
  | .tick, _ => bootstrapNodes cfg
  | .decodedPackets, p => named p
  | _, _ => []

theorem emits_sendNodes (nodes : List Neighbour) : (sendNodes nodes).Emits (· ≤ ·) nodeSent.value nodes := by
  induction nodes with
  | nil => exact le_rfl
  | cons n nodes ih => exact ⟨_,ih,le_rfl⟩

theorem emits_named (mem : Bytes) (ns : List Node) :
    (onFindNodeResponse cfg mem ns).Emits (· ≤ ·) nodeSent.value (ns.map (Neighbour.mk mem) : List Neighbour) := by
  induction ns with
  | nil => exact le_rfl
  | cons node ns ih =>
    have hskip : ((ns.map (Neighbour.mk mem) : List Neighbour) : Multiset Neighbour) ≤
        ((node :: ns).map (Neighbour.mk mem) : List Neighbour) := Multiset.coe_le.mpr (List.sublist_cons_self _ _).subperm
    intro n
    dsimp only
    split
    · exact Multiset.zero_le _
    · split
      · intro seen
        cases seen with
        | true => exact emits_mono addStable_le ih hskip
        | false => exact fun _ => ⟨_,ih,le_rfl⟩
      · exact emits_mono addStable_le ih hskip

theorem nodes_pay (cfg : Config) : Pays cfg (· ≤ ·) nodeSent (nodeDue cfg) where
  stable := addStable_le
  body c m := by
    cases c with
    | tick =>
      intro n
      dsimp only
      split
      · exact emits_sendNodes _
      · exact Multiset.zero_le _
    | decodedPackets =>
      obtain ⟨task,hbody,-,hstems⟩ := exists_task cfg m m.addr
      change (onMessage cfg m m.addr).Emits _ _ (named m : Multiset Neighbour)
      rw [hbody]
      have hzero : ∀ prog : Body, prog.Emits (· ≤ ·) nodeSent.value 0 → prog.Emits (· ≤ ·) nodeSent.value (named m) :=
        fun prog h => emits_mono addStable_le h (Multiset.zero_le _)
      cases task with
      | fail => exact Multiset.zero_le _
      | nodes mem ns =>
        obtain ⟨rfl,res,hres,rfl⟩ := hstems
        rw [named,hres]
        exact emits_named m.buf res.nodes
      | reply pkts =>
        exact hzero _ (emits_zero addStable_le (@keeps_sendAll _ pkts .done (fun _ => rfl) trivial).sends)
      | fetch pkts req =>
        exact hzero _ (emits_zero addStable_le (keeps_sendAll (fun _ => rfl) (keeps_push rfl rfl)).sends)
    | _ => exact emits_nothing addStable_le (by intro d hd n; cases d <;> first | rfl | cases hd) m
  source c hc m := by
    cases c <;> first | rfl | cases hc

theorem nodeSent_all (msgs : (c : Chan) → List (Message c)) : nodeSent.all msgs = msgs .neighbours := by
  unfold Entries.all nodeSent
  simp [flatMap_nothing]

theorem nodeDue_all (msgs : (c : Chan) → List (Message c)) :
    (nodeDue cfg).all msgs = (msgs .tick).flatMap (fun _ => bootstrapNodes cfg) ++ (msgs .decodedPackets).flatMap named := by
  unfold Entries.all nodeDue
  simp [flatMap_nothing]

/-- No node is asked that was not named: by a response, once for each time, or by the configuration,
once for each tick. -/
theorem asked_nodes_named (cfg : Config) (s : NetState (Goroutine cfg) Message Answer)
    (hs : (network cfg).Reaches (fun _ _ => True) .start s) :
    (s.put .neighbours).Subperm
      ((s.taken .tick).flatMap (fun _ => bootstrapNodes cfg) ++ (s.taken .decodedPackets).flatMap named) := by
  have h := (nodes_pay cfg).subperm id hs
  rwa [nodeSent_all,nodeDue_all] at h

/-- A tick has the bootstrap node asked, and nothing is left to do. -/
theorem exists_bootstrapped : ∃ (s : SampleState) (w : Bytes), (network sampleConfig).Reaches (fun _ _ => True) .start s ∧
    s.Idle ∧ s.taken .tick = [()] ∧ s.put .neighbours = bootstrapNodes sampleConfig ∧
    s.taken .outPackets = [⟨w,localPeer⟩] := by
  have hstart : (network sampleConfig).Reaches (fun _ _ => True) .start (solo (fun _ => []) (sole .tick) .done) := by
    rw [← start_eq_solo]
    exact .refl
  have hnode := (hstart.arrive (sole .tick) () rfl Nat.one_pos trivial).look.pass (q := sole .neighbours) (sole_ne nofun)
  let nodeID : Slice := .owned (sampleConfig.nodeID.take 10 ++ sampleConfig.nodeID.drop 10)
  have hrequest : (network sampleConfig).Reaches (fun _ _ => True) .start
      (solo (noted (noted (fun _ => []) .tick ()) .neighbours ⟨[],.owned sampleConfig.nodeID,localPeer⟩) (sole .neighbours)
        (sendPacket [] (setT (newFindNodeRequest nodeID (ascii "target")) (.owned (ascii "t"))) localPeer .done)) :=
    (hnode.reply ()).reply ((ascii "target",ascii "t") : Bytes × Bytes)
  obtain ⟨w,hw⟩ := packets_findNode [] nodeID (ascii "target") (ascii "t") localPeer
  rw [sendPacket_eq,hw] at hrequest
  have hdone := sent_out (c := .neighbours) nofun hrequest
  exact ⟨_,w,hdone,idle_solo,rfl,rfl,rfl⟩

theorem bootstrap_node_named : ∃ (s : SampleState) (w : Bytes), s.Idle ∧ s.taken .tick = [()] ∧
    s.put .neighbours = bootstrapNodes sampleConfig ∧ s.taken .outPackets = [⟨w,localPeer⟩] ∧
    (s.put .neighbours).Subperm
      ((s.taken .tick).flatMap (fun _ => bootstrapNodes sampleConfig) ++ (s.taken .decodedPackets).flatMap named) := by
  obtain ⟨s,w,hs,hidle,htick,hnodes,hsent⟩ := exists_bootstrapped
  exact ⟨s,w,hidle,htick,hnodes,hsent,asked_nodes_named sampleConfig s hs⟩

end Nodes

end DhtOcean.Pipeline
