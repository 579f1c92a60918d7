import Mathlib.Logic.ExistsUnique
import Mathlib.Logic.Function.Basic
import DhtOcean.Tracker.Connection

/-! # The connect handshake of the UDP tracker

Any number of `Scrape` calls run beside the receive loop. A call that reads a
connection ID of zero goes on to wait at the channel `connected`; the loop stores
the ID of a connect response and then offers one token there. The channel has no
buffer, so its length is always zero and the loop offers the token always. This is
what the calls behind a connection that was made show of themselves: each run here is
one of `Connection` behind a `Start`.
-/
namespace DhtOcean.Tracker
open Foundation

/-- Where a `Scrape` call is. A call is `waiting` from its check on, before it blocks. -/
inductive ScrapePhase
  | start
  | waiting
  | ready
  | sent (connectionID : UInt64)
  deriving DecidableEq, Repr

/-- Where the receive loop is: before the connect response, at the send on `connected`, behind it. -/
inductive LoopPhase
  | reading
  | sending
  | done
  deriving DecidableEq, Repr

structure Handshake (ι : Type) where
  connectionID : UInt64
  scrape : ι → ScrapePhase
  loop : LoopPhase

inductive Event (ι : Type)
  /-- `Scrape` compares the connection ID with zero. -/
  | check (i : ι)
  /-- `handleConnect` stores the ID of a response. -/
  | respond (id : UInt64)
  /-- The loop's send meets a call's receive. -/
  | handover (i : ι)
  /-- `Scrape` puts the connection ID into its request. -/
  | send (i : ι)
  deriving DecidableEq

variable {ι : Type} [DecidableEq ι]

def newHandshake : Handshake ι := ⟨0,fun _ => .start,.reading⟩

def moveTo (s : Handshake ι) (i : ι) (phase : ScrapePhase) : Handshake ι :=
  { s with scrape := Function.update s.scrape i phase }

def step (s : Handshake ι) : Event ι → Option (Handshake ι)
  | .check i =>
    if s.scrape i = .start then some (moveTo s i (if s.connectionID = 0 then .waiting else .ready)) else none
  | .respond id => if s.loop = .reading then some { s with connectionID := id, loop := .sending } else none
  | .handover i =>
    if s.loop = .sending ∧ s.scrape i = .waiting then some { moveTo s i .ready with loop := .done } else none
  | .send i => if s.scrape i = .ready then some (moveTo s i (.sent s.connectionID)) else none

/-- A response carries a connection ID other than zero. -/
def Nonzero (_ : Handshake ι) : Event ι → Prop
  | .respond id => id ≠ 0
  | _ => True

/-- The response finds exactly one call at the channel. -/
def OneWaiting (s : Handshake ι) (e : Event ι) : Prop :=
  Nonzero s e ∧ ∀ id, e = .respond id → ∃! i, s.scrape i = .waiting

/-- The loop is stuck when nobody waits and no later check can find a zero ID; a call is
stuck when it waits and the loop is past its only token. -/
def Stuck (s : Handshake ι) : Prop :=
  (s.loop = .sending ∧ s.connectionID ≠ 0 ∧ ∀ i, s.scrape i ≠ .waiting) ∨
  (s.loop = .done ∧ ∃ i, s.scrape i = .waiting)

/-- What each event needs and does. -/
theorem step_cases {s t : Handshake ι} {e : Event ι} (h : step s e = some t) :
    (∃ i, e = .check i ∧ s.scrape i = .start ∧
      t = moveTo s i (if s.connectionID = 0 then .waiting else .ready)) ∨
    (∃ id, e = .respond id ∧ s.loop = .reading ∧ t = { s with connectionID := id, loop := .sending }) ∨
    (∃ i, e = .handover i ∧ s.loop = .sending ∧ s.scrape i = .waiting ∧
      t = { moveTo s i .ready with loop := .done }) ∨
    (∃ i, e = .send i ∧ s.scrape i = .ready ∧ t = moveTo s i (.sent s.connectionID)) := by
  cases e <;> simp only [step,Option.ite_none_right_eq_some,Option.some.injEq] at h
  case check i => exact .inl ⟨i,rfl,h.1,h.2.symm⟩
  case respond id => exact .inr (.inl ⟨id,rfl,h.1,h.2.symm⟩)
  case handover i => exact .inr (.inr (.inl ⟨i,rfl,h.1.1,h.1.2,h.2.symm⟩))
  case send i => exact .inr (.inr (.inr ⟨i,rfl,h.1,h.2.symm⟩))

/-- Moving a call between two places away from the channel changes nothing there. -/
theorem waiting_moveTo {s : Handshake ι} {i : ι} {phase : ScrapePhase} (hs : s.scrape i ≠ .waiting)
    (hp : phase ≠ .waiting) (j : ι) : (moveTo s i phase).scrape j = .waiting ↔ s.scrape j = .waiting := by
  by_cases hj : j = i
  · subst hj
    simp [moveTo,hs,hp]
  · simp [moveTo,hj]

/-- The connection ID is zero exactly until the response. -/
def IdAgrees (s : Handshake ι) : Prop := s.connectionID = 0 ↔ s.loop = .reading

theorem IdAgrees.step {s t : Handshake ι} {e : Event ι} (hs : IdAgrees s) (hg : Nonzero s e)
    (h : step s e = some t) : IdAgrees t := by
  unfold IdAgrees at hs ⊢
  rcases step_cases h with ⟨i,-,-,rfl⟩ | ⟨id,rfl,-,rfl⟩ | ⟨i,-,hl,-,rfl⟩ | ⟨i,-,-,rfl⟩
  · exact hs
  · have hid : id ≠ 0 := hg
    simp [hid]
  · simpa [moveTo,hl] using hs
  · exact hs

/-- While the token is offered one call waits for it, and afterwards none. -/
def Paired (s : Handshake ι) : Prop :=
  (s.loop = .sending → ∃! i, s.scrape i = .waiting) ∧ (s.loop = .done → ∀ i, s.scrape i ≠ .waiting)

omit [DecidableEq ι] in
theorem Paired.not_stuck {s : Handshake ι} (hs : Paired s) : ¬ Stuck s := by
  rintro (⟨hl,-,hn⟩ | ⟨hl,i,hi⟩)
  · obtain ⟨i,hi,-⟩ := hs.1 hl
    exact hn i hi
  · exact hs.2 hl i hi

omit [DecidableEq ι] in
/-- Only the calls at the channel matter. -/
theorem Paired.congr {s t : Handshake ι} (hs : Paired s) (hl : t.loop = s.loop)
    (hw : ∀ i, t.scrape i = .waiting ↔ s.scrape i = .waiting) : Paired t := by
  refine ⟨?_,?_⟩
  · intro ht
    simpa only [hw] using hs.1 (hl ▸ ht)
  · intro ht i hi
    exact hs.2 (hl ▸ ht) i ((hw i).mp hi)

theorem Paired.step {s t : Handshake ι} {e : Event ι} (hs : Paired s) (hid : IdAgrees s)
    (hg : OneWaiting s e) (h : step s e = some t) : Paired t := by
  rcases step_cases h with ⟨i,-,hi,rfl⟩ | ⟨id,rfl,hl,rfl⟩ | ⟨i,-,hl,hi,rfl⟩ | ⟨i,-,hi,rfl⟩
  · by_cases hz : s.connectionID = 0
    · -- Before the response the loop offers nothing.
      have hl : s.loop = .reading := hid.mp hz
      refine ⟨?_,?_⟩ <;> intro ht <;> simp [moveTo,hl] at ht
    · refine hs.congr rfl (waiting_moveTo ?_ ?_)
      · simp [hi]
      · simp [hz]
  · refine ⟨fun _ => hg.2 id rfl,?_⟩
    intro ht
    cases ht
  · obtain ⟨k,hk,hu⟩ := hs.1 hl
    refine ⟨?_,?_⟩
    · intro ht
      cases ht
    · intro _ j hj
      by_cases hji : j = i
      · subst hji
        simp [moveTo] at hj
      · have hj' : s.scrape j = .waiting := by simpa [moveTo,hji] using hj
        exact hji ((hu j hj').trans (hu i hi).symm)
  · exact hs.congr rfl (waiting_moveTo (by simp [hi]) (by simp))

theorem reach_paired {s : Handshake ι} (hs : Reach step OneWaiting newHandshake s) : Paired s := by
  have h : IdAgrees s ∧ Paired s := by
    refine hs.invariant (P := fun s => IdAgrees s ∧ Paired s)
      ⟨by simp [IdAgrees,newHandshake],by simp [Paired,newHandshake]⟩ ?_
    intro s e t hst hg he
    exact ⟨hst.1.step hg.1 he,hst.2.step hst.1 hg he⟩
  exact h.2

/-- There is one response, so behind it every run keeps to the guard. -/
theorem reach_paired_behind {s t : Handshake ι} (hp : Paired s) (hid : IdAgrees s) (hl : s.loop ≠ .reading)
    (ht : Reach step Nonzero s t) : Paired t := by
  have h : IdAgrees t ∧ Paired t ∧ t.loop ≠ .reading := by
    refine ht.invariant (P := fun t => IdAgrees t ∧ Paired t ∧ t.loop ≠ .reading) ⟨hid,hp,hl⟩ ?_
    rintro u e v ⟨hui,hup,hul⟩ hg he
    refine ⟨hui.step hg he,hup.step hui ⟨hg,?_⟩ he,?_⟩
    · rintro id rfl
      simp [Tracker.step,hul] at he
    · rcases step_cases he with ⟨i,-,-,rfl⟩ | ⟨id,-,-,rfl⟩ | ⟨i,-,-,-,rfl⟩ | ⟨i,-,-,rfl⟩
      · exact hul
      · simp
      · simp
      · exact hul
  exact h.2.1

/-- A response that finds no call, or more than one, leaves somebody stuck. -/
theorem stuck_of_not_one {s t : Handshake ι} {id : UInt64} (hid : id ≠ 0)
    (h : step s (.respond id) = some t) (hn : ¬ ∃! i, s.scrape i = .waiting) :
    ∃ u, Reach step Nonzero t u ∧ Stuck u := by
  simp only [step,Option.ite_none_right_eq_some,Option.some.injEq] at h
  obtain ⟨-,rfl⟩ := h
  by_cases hw : ∃ i, s.scrape i = .waiting
  · obtain ⟨i,hi⟩ := hw
    have hj : ∃ j, j ≠ i ∧ s.scrape j = .waiting := by
      by_contra hno
      refine hn ⟨i,hi,?_⟩
      intro j hj
      by_contra hji
      exact hno ⟨j,hji,hj⟩
    obtain ⟨j,hji,hj⟩ := hj
    refine ⟨_,.next (l := .handover i) .start trivial (by simp [step,hi]; rfl),.inr ⟨rfl,j,?_⟩⟩
    simp [moveTo,hji,hj]
  · exact ⟨_,.start,.inl ⟨rfl,hid,fun i hi => hw ⟨i,hi⟩⟩⟩

/-- Nobody gets stuck in any run whose response finds exactly one call at the channel; and
whatever happened before it, a response is safe only if it does. -/
theorem handshake_safe_iff_one_waiting :
    (∀ s : Handshake ι, Reach step OneWaiting newHandshake s → ¬ Stuck s) ∧
    (∀ (s t : Handshake ι) (id : UInt64), Reach step Nonzero newHandshake s → id ≠ 0 →
      step s (.respond id) = some t →
      ((∀ u, Reach step Nonzero t u → ¬ Stuck u) ↔ ∃! i, s.scrape i = .waiting)) := by
  refine ⟨fun s hs => (reach_paired hs).not_stuck,?_⟩
  intro s t id hs hid h
  constructor
  · intro hsafe
    by_contra hn
    obtain ⟨u,hu,hstuck⟩ := stuck_of_not_one hid h hn
    exact hsafe u hu hstuck
  · intro hone u hu
    simp only [step,Option.ite_none_right_eq_some,Option.some.injEq] at h
    obtain ⟨-,rfl⟩ := h
    have hpaired : Paired { s with connectionID := id, loop := .sending } :=
      ⟨fun _ => hone,fun hl => by cases hl⟩
    exact (reach_paired_behind hpaired (by simp [IdAgrees,hid]) (by simp) hu).not_stuck

/-- A response before the first check, and one that two calls wait for. -/
theorem response_leaves_stuck :
    (∃ s : Handshake Bool, Reach step Nonzero newHandshake s ∧ s.loop = .sending ∧ Stuck s) ∧
    (∃ s : Handshake Bool, Reach step Nonzero newHandshake s ∧ s.loop = .done ∧ Stuck s) := by
  refine ⟨⟨⟨7,fun _ => .start,.sending⟩,?_,rfl,.inl ⟨rfl,by decide,by simp⟩⟩,?_⟩
  · exact .next (l := .respond 7) .start (show (7 : UInt64) ≠ 0 by decide) rfl
  · have hfirst : Reach step Nonzero (newHandshake : Handshake Bool) (moveTo newHandshake true .waiting) :=
      .next (l := .check true) .start trivial rfl
    have hboth := Reach.next (l := Event.check false) hfirst trivial rfl
    have hresp := Reach.next (l := Event.respond 7) hboth (show (7 : UInt64) ≠ 0 by decide) rfl
    exact ⟨_,Reach.next (l := .handover true) hresp trivial rfl,rfl,.inr ⟨rfl,false,rfl⟩⟩

section Connection

/-- What a call shows of itself here. A call that has not begun finds the connection made. -/
inductive Shows : Connection.CallPhase → ScrapePhase → Prop
  | idle : Shows .idle .start
  | waiting : Shows .waiting .waiting
  | ready : Shows .ready .ready
  | writing (id : UInt64) : Shows (.writing id) (.sent id)

inductive LoopShows : Connection.LoopPhase → LoopPhase → Prop
  | reading (socket : ℕ) : LoopShows (.reading socket) .reading
  | offering (socket : ℕ) : LoopShows (.offering socket) .sending
  | top : LoopShows .top .done

section Phases
variable {phase : Connection.CallPhase} {shown : ScrapePhase}

theorem Shows.idle_iff (h : Shows phase shown) : phase = .idle ↔ shown = .start := by
  cases h <;> simp

theorem Shows.waiting_iff (h : Shows phase shown) : phase = .waiting ↔ shown = .waiting := by
  cases h <;> simp

theorem Shows.ready_iff (h : Shows phase shown) : phase = .ready ↔ shown = .ready := by
  cases h <;> simp

theorem LoopShows.cases {loop : Connection.LoopPhase} {shown : LoopPhase} (h : LoopShows loop shown) :
    (∃ socket, loop = .reading socket ∧ shown = .reading) ∨
    (∃ socket, loop = .offering socket ∧ shown = .sending) ∨ (loop = .top ∧ shown = .done) := by
  cases h with
  | reading socket => exact .inl ⟨socket,rfl,rfl⟩
  | offering socket => exact .inr (.inl ⟨socket,rfl,rfl⟩)
  | top => exact .inr (.inr ⟨rfl,rfl⟩)

end Phases

/-- The connection is made and the loop `n` is the one that reads from it. -/
structure Refined (n : ℕ) (s : Handshake ι) (c : Connection.UDPTracker ι) : Prop where
  running : c.crashed = false
  connected : c.conn.isSome = true
  connectionID : c.connectionID = s.connectionID
  calls : ∀ i, Shows (c.calls i) (s.scrape i)
  loop : LoopShows (c.loops n) s.loop

/-- A `Scrape` that finds the connection made goes on to the check. -/
def Event.steps (n : ℕ) : Event ι → List (Connection.Event ι)
  | .check i => [.scrape i,.check i]
  | .respond id => [.connected n id]
  | .handover i => [.handover n i]
  | .send i => [.request i]

namespace Refined
variable {n : ℕ} {s : Handshake ι} {c : Connection.UDPTracker ι} {i : ι}

theorem calls_moveTo (h : Refined n s c) {phase : Connection.CallPhase} {shown : ScrapePhase} (hp : Shows phase shown)
    (j : ι) : Shows ((c.moveTo i phase).calls j) ((moveTo s i shown).scrape j) := by
  by_cases hj : j = i
  · subst hj
    simpa [Connection.UDPTracker.moveTo,moveTo] using hp
  · simpa [Connection.UDPTracker.moveTo,moveTo,hj] using h.calls j

theorem moveTo (h : Refined n s c) {phase : Connection.CallPhase} {shown : ScrapePhase} (hp : Shows phase shown) :
    Refined n (moveTo s i shown) (c.moveTo i phase) :=
  ⟨h.running,h.connected,h.connectionID,h.calls_moveTo hp,h.loop⟩

/-- A call that begins finds the connection made, and its check compares the same ID. -/
theorem check (h : Refined n s c) (i : ι) :
    Option.Rel (Refined n) (step s (.check i)) (run Connection.step c [.scrape i,.check i]) := by
  have hi := (h.calls i).idle_iff
  by_cases hs : s.scrape i = .start
  · have hrun : run Connection.step c [.scrape i,.check i] =
        some (c.moveTo i (if c.connectionID = 0 then .waiting else .ready)) := by
      simp [run,Connection.step,Connection.act,h.running,hi.mpr hs,h.connected,Connection.UDPTracker.enter,
        Connection.UDPTracker.proceed,Connection.UDPTracker.moveTo]
    rw [hrun,step,if_pos hs,h.connectionID]
    split
    · exact .some (h.moveTo .waiting)
    · exact .some (h.moveTo .ready)
  · have hc : c.calls i ≠ .idle := fun hc => hs (hi.mp hc)
    rw [step,if_neg hs]
    simp [run,Connection.step,Connection.act,h.running,hc]

theorem respond (h : Refined n s c) (id : UInt64) :
    Option.Rel (Refined n) (step s (.respond id)) (run Connection.step c [.connected n id]) := by
  rcases h.loop.cases with ⟨socket,hc,hs⟩ | ⟨socket,hc,hs⟩ | ⟨hc,hs⟩
  · have hrun : run Connection.step c [.connected n id] =
        some { c.turn n (.offering socket) with connectionID := id } := by
      simp [run,Connection.step,Connection.act,h.running,hc]
    rw [hrun,step,if_pos hs]
    refine .some ⟨h.running,h.connected,rfl,h.calls,?_⟩
    simpa [Connection.UDPTracker.turn] using LoopShows.offering socket
  all_goals simp [run,Connection.step,Connection.act,step,h.running,hc,hs]

theorem handover (h : Refined n s c) (i : ι) :
    Option.Rel (Refined n) (step s (.handover i)) (run Connection.step c [.handover n i]) := by
  rcases h.loop.cases with ⟨socket,hc,hs⟩ | ⟨socket,hc,hs⟩ | ⟨hc,hs⟩
  case inr.inl =>
    have hi := (h.calls i).waiting_iff
    by_cases hw : s.scrape i = .waiting
    · have hrun : run Connection.step c [.handover n i] = some ((c.turn n .top).moveTo i .ready) := by
        simp [run,Connection.step,Connection.act,h.running,hc,hi.mpr hw]
      rw [hrun,step,if_pos ⟨hs,hw⟩]
      refine .some ⟨h.running,h.connected,h.connectionID,h.calls_moveTo .ready,?_⟩
      simpa [Connection.UDPTracker.moveTo,Connection.UDPTracker.turn] using LoopShows.top
    · have hw' : c.calls i ≠ .waiting := fun hc => hw (hi.mp hc)
      simp [run,Connection.step,Connection.act,step,h.running,hc,hw,hw']
  all_goals simp [run,Connection.step,Connection.act,step,h.running,hc,hs]

theorem send (h : Refined n s c) (i : ι) :
    Option.Rel (Refined n) (step s (.send i)) (run Connection.step c [.request i]) := by
  have hi := (h.calls i).ready_iff
  by_cases hs : s.scrape i = .ready
  · have hrun : run Connection.step c [.request i] = some (c.moveTo i (.writing c.connectionID)) := by
      simp [run,Connection.step,Connection.act,h.running,hi.mpr hs]
    rw [hrun,step,if_pos hs,← h.connectionID]
    exact .some (h.moveTo (.writing _))
  · have hc : c.calls i ≠ .ready := fun hc => hs (hi.mp hc)
    simp [run,Connection.step,Connection.act,step,h.running,hs,hc]

theorem next (h : Refined n s c) (e : Event ι) :
    Option.Rel (Refined n) (step s e) (run Connection.step c (e.steps n)) := by
  cases e with
  | check i => exact h.check i
  | respond id => exact h.respond id
  | handover i => exact h.handover i
  | send i => exact h.send i

end Refined

/-- A `Start` that makes the connection, up to the first read of its loop. -/
def connecting (i : ι) : List (Connection.Event ι) :=
  [.start i,.resolve i true,.dial i true,.compare i,.send i true,.read 0]

theorem refined_connecting (i : ι) :
    ∃ c, run Connection.step Connection.newUDPTracker (connecting i) = some c ∧ Refined 0 newHandshake c := by
  refine ⟨⟨some 0,0,1,fun _ => .idle,Function.update (fun _ => .absent) 0 (.reading 0),false⟩,?_,?_⟩
  · simp [run,connecting,Connection.step,Connection.act,Connection.newUDPTracker,Connection.UDPTracker.enter,
      Connection.UDPTracker.moveTo,Connection.UDPTracker.assign,Connection.UDPTracker.launch,
      Connection.UDPTracker.turn,Connection.UDPTracker.proceed]
  · exact ⟨rfl,rfl,rfl,fun _ => .idle,.reading 0⟩

/-- The handshake runs in step with the connection behind a `Start`: what is enabled in one is enabled in
the other, and the states they come to show the same. -/
theorem handshake_in_connection (i : ι) (es : List (Event ι)) :
    Option.Rel (Refined 0) (run step newHandshake es)
      (run Connection.step Connection.newUDPTracker (connecting i ++ es.flatMap (Event.steps 0))) := by
  obtain ⟨c,hc,hrefined⟩ := refined_connecting i
  rw [run_append,hc]
  exact run_rel (fun e h => h.next e) hrefined es

end Connection

end DhtOcean.Tracker
