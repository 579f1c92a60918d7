import Mathlib.Data.Nat.Notation
import Mathlib.Logic.Function.Basic
import DhtOcean.Foundation.Transition

/-! # The connection of the UDP tracker

`connect` stores its socket in `conn` before it sends the connect request, and it
starts the receive loop only behind that. The calls of `Start`, `Scrape` and `Stop`
and the receive loops run beside each other, so that the tests and assignments of
`conn` and `connectionID` interleave; `disconnect` and `Stop` are one step each. A loop
evaluates `t.conn` anew for each datagram, and sockets are numbered in the order they
are dialed. To read from a nil connection or to write to it ends the process.
-/
namespace DhtOcean.Tracker.Connection
open Foundation

/-- Where a caller is. `scrape` tells a `Scrape` from a `Start`. -/
inductive CallPhase
  | idle
  | resolving (scrape : Bool)
  | dialing (scrape : Bool)
  /-- The socket is stored; the connection ID is compared with zero next. -/
  | comparing (socket : ℕ) (scrape : Bool)
  /-- In `sendConnect`. -/
  | sending (socket : ℕ) (scrape : Bool)
  /-- `Scrape` compares the connection ID with zero next. -/
  | checking
  /-- At `<-t.connected`. -/
  | waiting
  /-- The connection ID is put into the request next. -/
  | ready
  /-- The request carries this connection ID and is to be written. -/
  | writing (connectionID : UInt64)
  deriving DecidableEq, Repr

inductive LoopPhase
  | absent
  /-- `t.conn` is evaluated next. -/
  | top
  | reading (socket : ℕ)
  /-- At `t.connected <- struct{}{}`, for a datagram from this socket. -/
  | offering (socket : ℕ)
  /-- At `t.result <- results`, for a datagram from this socket. -/
  | delivering (socket : ℕ)
  deriving DecidableEq, Repr

/-- The loop that a call starts goes by the number of the socket that the call has dialed. -/
structure UDPTracker (ι : Type) where
  conn : Option ℕ
  connectionID : UInt64
  dialed : ℕ
  calls : ι → CallPhase
  loops : ℕ → LoopPhase
  crashed : Bool

inductive Cause
  | read
  | parse
  | handler
  deriving DecidableEq, Repr

inductive Event (ι : Type)
  | start (i : ι)
  | scrape (i : ι)
  | stop
  | resolve (i : ι) (ok : Bool)
  | dial (i : ι) (ok : Bool)
  | compare (i : ι)
  | send (i : ι) (ok : Bool)
  | check (i : ι)
  | request (i : ι)
  /-- `infoHash[:20]` of a shorter hash. -/
  | panic (i : ι)
  | write (i : ι)
  | read (n : ℕ)
  | fail (n : ℕ) (cause : Cause)
  | connected (n : ℕ) (id : UInt64)
  | handover (n : ℕ) (i : ι)
  /-- A scrape response; `known` if its transaction is found in the queue. -/
  | scraped (n : ℕ) (known : Bool)
  | delivered (n : ℕ)
  deriving DecidableEq

variable {ι : Type} [DecidableEq ι]

def newUDPTracker : UDPTracker ι := ⟨none,0,0,fun _ => .idle,fun _ => .absent,false⟩

namespace UDPTracker

def moveTo (s : UDPTracker ι) (i : ι) (phase : CallPhase) : UDPTracker ι :=
  { s with calls := Function.update s.calls i phase }

def turn (s : UDPTracker ι) (n : ℕ) (phase : LoopPhase) : UDPTracker ι :=
  { s with loops := Function.update s.loops n phase }

/-- The body of `Stop` as well. -/
def disconnect (s : UDPTracker ι) : UDPTracker ι :=
  if s.conn.isSome then { s with conn := none, connectionID := 0 } else s

def proceed (s : UDPTracker ι) (i : ι) (scrape : Bool) : UDPTracker ι :=
  s.moveTo i (if scrape then .checking else .idle)

/-- `Start` and `Scrape` up to the test of `conn`. -/
def enter (s : UDPTracker ι) (i : ι) (scrape : Bool) : UDPTracker ι :=
  if s.conn.isSome then s.proceed i scrape else s.moveTo i (.resolving scrape)

/-- `t.conn = c` -/
def assign (s : UDPTracker ι) (i : ι) (scrape : Bool) : UDPTracker ι :=
  { s.moveTo i (.comparing s.dialed scrape) with conn := some s.dialed, dialed := s.dialed + 1 }

def crash (s : UDPTracker ι) : UDPTracker ι := { s with crashed := true }

/-- `go t.receive()` -/
def launch (s : UDPTracker ι) (i : ι) (socket : ℕ) (scrape : Bool) : UDPTracker ι :=
  (s.turn socket .top).proceed i scrape

end UDPTracker

open UDPTracker

/-- A step of a process that has not crashed. -/
def act (s : UDPTracker ι) : Event ι → Option (UDPTracker ι)
  | .start i => if s.calls i = .idle then some (s.enter i false) else none
  | .scrape i => if s.calls i = .idle then some (s.enter i true) else none
  | .stop => some s.disconnect
  | .resolve i ok =>
    match s.calls i with
    | .resolving scrape => some (s.moveTo i (if ok then .dialing scrape else .idle))
    | _ => none
  | .dial i ok =>
    match s.calls i with
    | .dialing scrape => some (if ok then s.assign i scrape else s.moveTo i .idle)
    | _ => none
  | .compare i =>
    match s.calls i with
    | .comparing socket scrape =>
      some (if s.connectionID = 0 then s.moveTo i (.sending socket scrape) else s.launch i socket scrape)
    | _ => none
  | .send i ok =>
    match s.calls i with
    | .sending socket scrape =>
      some (if s.conn.isNone then s.crash else if ok then s.launch i socket scrape else s.moveTo i .idle)
    | _ => none
  | .check i =>
    if s.calls i = .checking then some (s.moveTo i (if s.connectionID = 0 then .waiting else .ready)) else none
  | .request i => if s.calls i = .ready then some (s.moveTo i (.writing s.connectionID)) else none
  | .panic i => if s.calls i = .ready then some s.crash else none
  | .write i =>
    match s.calls i with
    | .writing _ => some (if s.conn.isNone then s.crash else s.moveTo i .idle)
    | _ => none
  | .read n =>
    if s.loops n = .top then
      match s.conn with
      | some socket => some (s.turn n (.reading socket))
      | none => some s.crash
    else none
  | .fail n _ =>
    match s.loops n with
    | .reading _ => some (s.disconnect.turn n .absent)
    | _ => none
  | .connected n id =>
    match s.loops n with
    | .reading socket => some { s.turn n (.offering socket) with connectionID := id }
    | _ => none
  | .handover n i =>
    match s.loops n with
    | .offering _ => if s.calls i = .waiting then some ((s.turn n .top).moveTo i .ready) else none
    | _ => none
  | .scraped n known =>
    match s.loops n with
    | .reading socket => some (s.turn n (if known then .delivering socket else .top))
    | _ => none
  | .delivered n =>
    match s.loops n with
    | .delivering _ => some (s.turn n .top)
    | _ => none

def step (s : UDPTracker ι) (e : Event ι) : Option (UDPTracker ι) := if s.crashed then none else act s e

/-- The call has stored this socket and has not started its loop yet. -/
def CallPhase.Holds : CallPhase → ℕ → Prop
  | .comparing x _, y => x = y
  | .sending x _, y => x = y
  | _, _ => False

/-- The loop reads from this socket or handles what it has read from there, or it takes the one in
`conn` next. -/
def LoopPhase.Serves : LoopPhase → ℕ → Prop
  | .absent, _ => False
  | .top, _ => True
  | .reading x, y => x = y
  | .offering x, y => x = y
  | .delivering x, y => x = y

def UDPTracker.ReadFrom (s : UDPTracker ι) (y : ℕ) : Prop := ∃ n, (s.loops n).Serves y

/-- A receive loop runs on the connection, or the call that has dialed it is about to start one. -/
def Served (s : UDPTracker ι) : Prop :=
  ∀ y, s.conn = some y → (∃ i, (s.calls i).Holds y) ∨ s.ReadFrom y

/-- A connect request fails only on a socket that `conn` has lost meanwhile or that another loop reads
from. -/
def FailsUnnoticed (s : UDPTracker ι) : Event ι → Prop
  | .send i false => ∀ y scrape, s.calls i = .sending y scrape → s.conn = some y → s.ReadFrom y
  | _ => True

section Steps
variable {s t : UDPTracker ι} {i j : ι} {n y : ℕ} {phase : CallPhase} {loop : LoopPhase}

theorem holds_moveTo : ((s.moveTo i phase).calls j).Holds y ↔
    (j = i ∧ phase.Holds y) ∨ (j ≠ i ∧ (s.calls j).Holds y) := by
  by_cases h : j = i
  · subst h
    simp [moveTo]
  · simp [moveTo,h]

omit [DecidableEq ι] in
theorem readFrom_turn (h : loop.Serves y) : (s.turn n loop).ReadFrom y :=
  ⟨n,by simpa [turn] using h⟩

omit [DecidableEq ι] in
theorem ReadFrom.turn (h : s.ReadFrom y) (hn : (s.loops n).Serves y → loop.Serves y) :
    (s.turn n loop).ReadFrom y := by
  obtain ⟨m,hm⟩ := h
  by_cases hmn : m = n
  · subst hmn
    exact readFrom_turn (hn hm)
  · exact ⟨m,by simpa [UDPTracker.turn,hmn] using hm⟩

theorem act_of_step {e : Event ι} (h : step s e = some t) : s.crashed = false ∧ act s e = some t := by
  unfold step at h
  split at h
  · cases h
  · rename_i hcrashed
    exact ⟨by simpa using hcrashed,h⟩

/-- A step that takes the connection from nobody but by giving it up. -/
structure Calm (s t : UDPTracker ι) : Prop where
  conn : t.conn = s.conn ∨ t.conn = none
  dialed : t.dialed = s.dialed
  holds : ∀ i y, (t.calls i).Holds y → (s.calls i).Holds y
  kept : ∀ i y, t.conn = some y → (s.calls i).Holds y → (t.calls i).Holds y ∨ t.ReadFrom y
  read : ∀ y, t.conn = some y → s.ReadFrom y → t.ReadFrom y

namespace Calm

theorem moveTo (h : ∀ y, phase.Holds y ↔ (s.calls i).Holds y) : Calm s (s.moveTo i phase) where
  conn := .inl rfl
  dialed := rfl
  holds := by
    intro j y hj
    rcases holds_moveTo.mp hj with ⟨rfl,hp⟩ | ⟨-,hp⟩
    · exact (h y).mp hp
    · exact hp
  kept := by
    intro j y _ hj
    left
    apply holds_moveTo.mpr
    by_cases hji : j = i
    · subst hji
      exact .inl ⟨rfl,(h y).mpr hj⟩
    · exact .inr ⟨hji,hj⟩
  read := fun _ _ hr => hr

theorem enter (scrape : Bool) (h : s.calls i = .idle) : Calm s (s.enter i scrape) := by
  unfold UDPTracker.enter
  split
  · apply moveTo
    cases scrape <;> simp [h,CallPhase.Holds]
  · exact moveTo (by simp [h,CallPhase.Holds])

omit [DecidableEq ι] in
theorem turn (id : UInt64) (h : ∀ y, s.conn = some y → (s.loops n).Serves y → loop.Serves y) :
    Calm s { s.turn n loop with connectionID := id } where
  conn := .inl rfl
  dialed := rfl
  holds := fun _ _ hy => hy
  kept := fun _ _ _ hy => .inl hy
  read := fun y hy hr => ReadFrom.turn hr (h y hy)

omit [DecidableEq ι] in
theorem disconnect (s : UDPTracker ι) (loops : ℕ → LoopPhase) : Calm s { s.disconnect with loops := loops } := by
  have hconn : s.disconnect.conn = none := by
    unfold UDPTracker.disconnect
    split
    · rfl
    · simpa using ‹¬ s.conn.isSome = true›
  have hcalls : s.disconnect.calls = s.calls ∧ s.disconnect.dialed = s.dialed := by
    unfold UDPTracker.disconnect
    split <;> exact ⟨rfl,rfl⟩
  refine ⟨.inr hconn,hcalls.2,?_,?_,?_⟩
  · intro i y hy
    rwa [← hcalls.1]
  · intro i y hy
    cases hconn.symm.trans hy
  · intro y hy
    cases hconn.symm.trans hy

omit [DecidableEq ι] in
theorem trans {u : UDPTracker ι} (h : Calm s t) (h' : Calm t u) : Calm s u := by
  have hconn : ∀ y, u.conn = some y → t.conn = some y := by
    intro y hy
    rcases h'.conn with heq | hnone
    · exact heq ▸ hy
    · cases hnone.symm.trans hy
  refine ⟨?_,h'.dialed.trans h.dialed,fun i y hy => h.holds i y (h'.holds i y hy),?_,?_⟩
  · rcases h'.conn with heq | hnone
    · exact heq ▸ h.conn
    · exact .inr hnone
  · intro i y hy hs
    rcases h.kept i y (hconn y hy) hs with ht | hr
    · exact h'.kept i y hy ht
    · exact .inr (h'.read y hy hr)
  · exact fun y hy hr => h'.read y hy (h.read y (hconn y hy) hr)

omit [DecidableEq ι] in
theorem crash (s : UDPTracker ι) : Calm s s.crash where
  conn := .inl rfl
  dialed := rfl
  holds := fun _ _ hy => hy
  kept := fun _ _ _ hy => .inl hy
  read := fun _ _ hr => hr

theorem launch (s : UDPTracker ι) (i : ι) (y : ℕ) (scrape : Bool) : Calm s (s.launch i y scrape) where
  conn := .inl rfl
  dialed := rfl
  holds := by
    intro j x hj
    rcases holds_moveTo.mp hj with ⟨-,hp⟩ | ⟨-,hp⟩
    · cases scrape <;> cases hp
    · exact hp
  kept := fun _ _ _ _ => .inr (readFrom_turn trivial)
  read := fun _ _ _ => readFrom_turn trivial

end Calm

/-- A step stores a socket, fails to send the connect request, or is calm. -/
theorem step_cases {e : Event ι} (h : step s e = some t) :
    (∃ i scrape, e = .dial i true ∧ s.calls i = .dialing scrape ∧ t = s.assign i scrape) ∨
    (∃ i y scrape, e = .send i false ∧ s.calls i = .sending y scrape ∧ t = s.moveTo i .idle) ∨
    ((∀ i y, e = .send i false → s.conn ≠ some y) ∧ Calm s t) := by
  obtain ⟨-,h⟩ := act_of_step h
  cases e with
  | start i =>
    simp only [act,Option.ite_none_right_eq_some,Option.some.injEq] at h
    obtain ⟨hi,rfl⟩ := h
    exact .inr (.inr ⟨by simp,.enter _ hi⟩)
  | scrape i =>
    simp only [act,Option.ite_none_right_eq_some,Option.some.injEq] at h
    obtain ⟨hi,rfl⟩ := h
    exact .inr (.inr ⟨by simp,.enter _ hi⟩)
  | stop =>
    cases h
    exact .inr (.inr ⟨by simp,.disconnect s _⟩)
  | resolve i ok =>
    simp only [act] at h
    split at h
    · cases h
      refine .inr (.inr ⟨by simp,.moveTo ?_⟩)
      cases ok <;> simp [*,CallPhase.Holds]
    · cases h
  | dial i ok =>
    simp only [act] at h
    split at h
    · rename_i scrape hi
      cases h
      cases ok with
      | true => exact .inl ⟨i,scrape,rfl,hi,rfl⟩
      | false => exact .inr (.inr ⟨by simp,.moveTo (by simp [hi,CallPhase.Holds])⟩)
    · cases h
  | compare i =>
    simp only [act] at h
    split at h
    · rename_i socket scrape hi
      cases h
      refine .inr (.inr ⟨by simp,?_⟩)
      split
      · exact .moveTo (by simp [hi,CallPhase.Holds])
      · exact .launch s i socket scrape
    · cases h
  | send i ok =>
    simp only [act] at h
    split at h
    · rename_i socket scrape hi
      cases h
      by_cases hconn : s.conn.isNone
      · rw [if_pos hconn]
        refine .inr (.inr ⟨?_,.crash s⟩)
        intro j y _ hy
        simp [hy] at hconn
      · rw [if_neg hconn]
        cases ok with
        | true => exact .inr (.inr ⟨by simp,.launch s i socket scrape⟩)
        | false => exact .inr (.inl ⟨i,socket,scrape,rfl,hi,rfl⟩)
    · cases h
  | check i =>
    simp only [act,Option.ite_none_right_eq_some,Option.some.injEq] at h
    obtain ⟨hi,rfl⟩ := h
    refine .inr (.inr ⟨by simp,.moveTo ?_⟩)
    split <;> simp [hi,CallPhase.Holds]
  | request i =>
    simp only [act,Option.ite_none_right_eq_some,Option.some.injEq] at h
    obtain ⟨hi,rfl⟩ := h
    exact .inr (.inr ⟨by simp,.moveTo (by simp [hi,CallPhase.Holds])⟩)
  | panic i =>
    simp only [act,Option.ite_none_right_eq_some,Option.some.injEq] at h
    obtain ⟨-,rfl⟩ := h
    exact .inr (.inr ⟨by simp,.crash s⟩)
  | write i =>
    simp only [act] at h
    split at h
    · rename_i id hi
      cases h
      refine .inr (.inr ⟨by simp,?_⟩)
      split
      · exact .crash s
      · exact .moveTo (by simp [hi,CallPhase.Holds])
    · cases h
  | read n =>
    simp only [act] at h
    split at h
    · refine .inr (.inr ⟨by simp,?_⟩)
      split at h
      · rename_i socket hconn
        cases h
        exact .turn s.connectionID fun y hy _ => Option.some.inj (hconn.symm.trans hy)
      · cases h
        exact .crash s
    · cases h
  | fail n cause =>
    simp only [act] at h
    split at h
    · cases h
      exact .inr (.inr ⟨by simp,.disconnect s _⟩)
    · cases h
  | connected n id =>
    simp only [act] at h
    split at h
    · rename_i socket hn
      cases h
      exact .inr (.inr ⟨by simp,.turn id fun y _ hy => by rw [hn] at hy; exact hy⟩)
    · cases h
  | handover n i =>
    simp only [act] at h
    split at h
    · simp only [Option.ite_none_right_eq_some,Option.some.injEq] at h
      obtain ⟨hi,rfl⟩ := h
      have hloop : Calm s (s.turn n .top) := .turn s.connectionID (fun _ _ _ => trivial)
      exact .inr (.inr ⟨by simp,hloop.trans (.moveTo (by simp [hi,UDPTracker.turn,CallPhase.Holds]))⟩)
    · cases h
  | scraped n known =>
    simp only [act] at h
    split at h
    · rename_i socket hn
      cases h
      refine .inr (.inr ⟨by simp,.turn s.connectionID fun y _ hy => ?_⟩)
      rw [hn] at hy
      cases known
      · trivial
      · exact hy
    · cases h
  | delivered n =>
    simp only [act] at h
    split at h
    · cases h
      exact .inr (.inr ⟨by simp,.turn s.connectionID (fun _ _ _ => trivial)⟩)
    · cases h

end Steps

section Loops
variable {s t : UDPTracker ι} {e : Event ι} {n : ℕ}

def LoopPhase.Delivering : LoopPhase → Prop
  | .delivering _ => True
  | _ => False

omit [DecidableEq ι] in
theorem loops_disconnect (s : UDPTracker ι) : s.disconnect.loops = s.loops := by
  unfold UDPTracker.disconnect
  split <;> rfl

theorem loops_enter (s : UDPTracker ι) (i : ι) (scrape : Bool) : (s.enter i scrape).loops = s.loops := by
  unfold UDPTracker.enter
  split <;> rfl

/-- The loop comes to the channel `result`. -/
def Event.Parks (e : Event ι) (n : ℕ) : Prop := e = .scraped n true

/-- The loop goes on from there. -/
def Event.Frees (e : Event ι) (n : ℕ) : Prop := e = .delivered n

/-- No loop comes to the channel or goes on from there. -/
def Event.Still (e : Event ι) : Prop := ∀ n, ¬ e.Parks n ∧ ¬ e.Frees n

/-- Whether a loop comes to the channel or goes on from there. -/
def Event.atResult : Event ι → Bool
  | .scraped _ known => known
  | .delivered _ => true
  | _ => false

omit [DecidableEq ι] in
theorem Event.still_of_atResult {e : Event ι} (h : e.atResult = false) : e.Still := by
  intro n
  constructor
  · rintro rfl
    cases h
  · rintro rfl
    cases h

/-- No loop moves, a call starts the one of its socket, or one moves that was there before. -/
theorem step_loops (h : step s e = some t) :
    (t.loops = s.loops ∧ e.Still) ∨
    (∃ i y scrape, (s.calls i).Holds y ∧ t = s.launch i y scrape ∧ e.Still) ∨
    (∃ n phase, t.loops = Function.update s.loops n phase ∧ s.loops n ≠ .absent ∧
      ∀ m, (e.Parks m ↔ m = n ∧ phase.Delivering) ∧ (e.Frees m ↔ m = n ∧ (s.loops n).Delivering)) := by
  obtain ⟨-,h⟩ := act_of_step h
  cases e with
  | start i =>
    simp only [act,Option.ite_none_right_eq_some,Option.some.injEq] at h
    exact .inl ⟨h.2 ▸ loops_enter s i false,Event.still_of_atResult rfl⟩
  | scrape i =>
    simp only [act,Option.ite_none_right_eq_some,Option.some.injEq] at h
    exact .inl ⟨h.2 ▸ loops_enter s i true,Event.still_of_atResult rfl⟩
  | stop =>
    cases h
    exact .inl ⟨loops_disconnect s,Event.still_of_atResult rfl⟩
  | resolve i ok =>
    simp only [act] at h
    split at h <;> cases h
    exact .inl ⟨rfl,Event.still_of_atResult rfl⟩
  | dial i ok =>
    simp only [act] at h
    split at h <;> cases h
    cases ok <;> exact .inl ⟨rfl,Event.still_of_atResult rfl⟩
  | compare i =>
    simp only [act] at h
    split at h
    · rename_i socket scrape hi
      split at h <;> cases h
      · exact .inl ⟨rfl,Event.still_of_atResult rfl⟩
      · exact .inr (.inl ⟨i,socket,scrape,by rw [hi]; rfl,rfl,Event.still_of_atResult rfl⟩)
    · cases h
  | send i ok =>
    simp only [act] at h
    split at h
    · rename_i socket scrape hi
      split at h
      · cases h
        exact .inl ⟨rfl,Event.still_of_atResult rfl⟩
      · split at h <;> cases h
        · exact .inr (.inl ⟨i,socket,scrape,by rw [hi]; rfl,rfl,Event.still_of_atResult rfl⟩)
        · exact .inl ⟨rfl,Event.still_of_atResult rfl⟩
    · cases h
  | check i =>
    simp only [act,Option.ite_none_right_eq_some,Option.some.injEq] at h
    exact .inl ⟨h.2 ▸ rfl,Event.still_of_atResult rfl⟩
  | request i =>
    simp only [act,Option.ite_none_right_eq_some,Option.some.injEq] at h
    exact .inl ⟨h.2 ▸ rfl,Event.still_of_atResult rfl⟩
  | panic i =>
    simp only [act,Option.ite_none_right_eq_some,Option.some.injEq] at h
    exact .inl ⟨h.2 ▸ rfl,Event.still_of_atResult rfl⟩
  | write i =>
    simp only [act] at h
    split at h
    · split at h <;> cases h <;> exact .inl ⟨rfl,Event.still_of_atResult rfl⟩
    · cases h
  | read n =>
    simp only [act] at h
    split at h
    · rename_i hn
      split at h <;> cases h
      · exact .inr (.inr ⟨n,_,rfl,by simp [hn],by simp [hn,Event.Parks,Event.Frees,LoopPhase.Delivering]⟩)
      · exact .inl ⟨rfl,Event.still_of_atResult rfl⟩
    · cases h
  | fail n cause =>
    simp only [act] at h
    split at h <;> cases h
    rename_i socket hn
    refine .inr (.inr ⟨n,.absent,?_,by simp [hn],by simp [hn,Event.Parks,Event.Frees,LoopPhase.Delivering]⟩)
    rw [UDPTracker.turn,loops_disconnect]
  | connected n id =>
    simp only [act] at h
    split at h <;> cases h
    rename_i socket hn
    exact .inr (.inr ⟨n,_,rfl,by simp [hn],by simp [hn,Event.Parks,Event.Frees,LoopPhase.Delivering]⟩)
  | handover n i =>
    simp only [act] at h
    split at h
    · rename_i socket hn
      simp only [Option.ite_none_right_eq_some,Option.some.injEq] at h
      obtain ⟨-,rfl⟩ := h
      exact .inr (.inr ⟨n,_,rfl,by simp [hn],by simp [hn,Event.Parks,Event.Frees,LoopPhase.Delivering]⟩)
    · cases h
  | scraped n known =>
    simp only [act] at h
    split at h <;> cases h
    rename_i socket hn
    refine .inr (.inr ⟨n,_,rfl,by simp [hn],?_⟩)
    cases known <;> simp [hn,Event.Parks,Event.Frees,LoopPhase.Delivering,eq_comm]
  | delivered n =>
    simp only [act] at h
    split at h <;> cases h
    rename_i socket hn
    exact .inr (.inr ⟨n,_,rfl,by simp [hn],by simp [hn,Event.Parks,Event.Frees,LoopPhase.Delivering,eq_comm]⟩)

/-- A loop that comes to the channel was reading before. -/
theorem not_delivering_of_parks (h : step s e = some t) (he : e.Parks n) : ¬ (s.loops n).Delivering := by
  obtain rfl := he
  obtain ⟨-,h⟩ := act_of_step h
  simp only [act] at h
  split at h
  · rename_i hn
    rw [hn]
    exact id
  · cases h

/-- A step stores a socket or lets no call hold more than before. -/
theorem holds_step (h : step s e = some t) :
    (∃ i scrape, t = s.assign i scrape) ∨
    (t.dialed = s.dialed ∧ ∀ i y, (t.calls i).Holds y → (s.calls i).Holds y) := by
  rcases step_cases h with ⟨i,scrape,-,-,rfl⟩ | ⟨i,y,scrape,-,hi,rfl⟩ | ⟨-,hcalm⟩
  · exact .inl ⟨i,scrape,rfl⟩
  · refine .inr ⟨rfl,?_⟩
    intro j x hj
    rcases holds_moveTo.mp hj with ⟨-,hx⟩ | ⟨-,hx⟩
    · cases hx
    · exact hx
  · exact .inr ⟨hcalm.dialed,hcalm.holds⟩

/-- Each socket is held by one call at most, and a call that is still to start a loop finds the place of
its socket free. -/
structure Numbered (s : UDPTracker ι) : Prop where
  bound : ∀ i y, (s.calls i).Holds y → y < s.dialed
  single : ∀ i j y, (s.calls i).Holds y → (s.calls j).Holds y → i = j
  started : ∀ n, s.loops n ≠ .absent → n < s.dialed
  free : ∀ i y, (s.calls i).Holds y → s.loops y = .absent

namespace Numbered

omit [DecidableEq ι] in
theorem new : Numbered (newUDPTracker : UDPTracker ι) where
  bound := by
    rintro i y ⟨⟩
  single := by
    rintro i j y ⟨⟩
  started := fun n hn => absurd rfl hn
  free := by
    rintro i y ⟨⟩

theorem assign (hs : Numbered s) (i : ι) (scrape : Bool) : Numbered (s.assign i scrape) where
  bound := by
    intro j y hj
    rcases holds_moveTo.mp hj with ⟨-,hy⟩ | ⟨-,hy⟩
    · exact hy ▸ Nat.lt_succ_self _
    · exact Nat.lt_succ_of_lt (hs.bound j y hy)
  single := by
    intro j k y hj hk
    -- The new socket has a number that nobody else holds.
    rcases holds_moveTo.mp hj with ⟨rfl,hy⟩ | ⟨-,hy⟩ <;> rcases holds_moveTo.mp hk with ⟨rfl,hy'⟩ | ⟨-,hy'⟩
    · rfl
    · exact absurd (hs.bound k y hy') (hy ▸ Nat.lt_irrefl _)
    · exact absurd (hs.bound j y hy) (hy' ▸ Nat.lt_irrefl _)
    · exact hs.single j k y hy hy'
  started := fun n hn => Nat.lt_succ_of_lt (hs.started n hn)
  free := by
    intro j y hj
    rcases holds_moveTo.mp hj with ⟨-,hy⟩ | ⟨-,hy⟩
    · by_contra hne
      exact absurd (hs.started y hne) (hy ▸ Nat.lt_irrefl _)
    · exact hs.free j y hy

theorem not_holds_launch (i : ι) (y : ℕ) (scrape : Bool) : ¬ ((s.launch i y scrape).calls i).Holds y := by
  intro h
  rcases holds_moveTo.mp h with ⟨-,h⟩ | ⟨h,-⟩
  · cases scrape <;> cases h
  · exact h rfl

theorem step (hs : Numbered s) (h : step s e = some t) : Numbered t := by
  rcases holds_step h with ⟨i,scrape,rfl⟩ | ⟨hdialed,hholds⟩
  · exact hs.assign i scrape
  · refine ⟨fun i y hy => hdialed ▸ hs.bound i y (hholds i y hy),
      fun i j y hi hj => hs.single i j y (hholds i y hi) (hholds j y hj),?_,?_⟩
    · intro n hn
      rw [hdialed]
      rcases step_loops h with ⟨hloops,-⟩ | ⟨i,y,scrape,hi,rfl,-⟩ | ⟨m,phase,hloops,hm,-⟩
      · exact hs.started n (hloops ▸ hn)
      · by_cases hny : n = y
        · exact hny ▸ hs.bound i y hi
        · exact hs.started n (by simpa [UDPTracker.launch,UDPTracker.proceed,moveTo,turn,hny] using hn)
      · by_cases hnm : n = m
        · exact hnm ▸ hs.started m hm
        · exact hs.started n (by simpa [hloops,hnm] using hn)
    · intro j y hj
      have hfree := hs.free j y (hholds j y hj)
      rcases step_loops h with ⟨hloops,-⟩ | ⟨i,x,scrape,hi,rfl,-⟩ | ⟨m,phase,hloops,hm,-⟩
      · rw [hloops,hfree]
      · by_cases hyx : y = x
        · -- The call that has started the loop was the one that held the socket.
          subst hyx
          obtain rfl := hs.single i j y hi (hholds j y hj)
          exact absurd hj (not_holds_launch i y scrape)
        · simpa [UDPTracker.launch,UDPTracker.proceed,moveTo,turn,hyx] using hfree
      · have hym : y ≠ m := by
          rintro rfl
          exact hm hfree
        simpa [hloops,hym] using hfree

/-- Loops are parked at the channel `result` and let go by no other events than these. -/
theorem delivering_step (hs : Numbered s) (h : Connection.step s e = some t) (n : ℕ) :
    (t.loops n).Delivering ↔ ((s.loops n).Delivering ∧ ¬ e.Frees n) ∨ e.Parks n := by
  rcases step_loops h with ⟨hloops,he⟩ | ⟨i,y,scrape,hi,rfl,he⟩ | ⟨m,phase,hloops,-,he⟩
  · simp [hloops,he n]
  · by_cases hny : n = y
    · subst hny
      simp [UDPTracker.launch,UDPTracker.proceed,moveTo,turn,LoopPhase.Delivering,hs.free i n hi,he n]
    · simp [UDPTracker.launch,UDPTracker.proceed,moveTo,turn,hny,he n]
  · by_cases hnm : n = m
    · subst hnm
      simp [hloops,(he n).1,(he n).2]
    · simp [hloops,hnm,(he n).1,(he n).2]

end Numbered

end Loops

structure Attended (s : UDPTracker ι) : Prop where
  served : Served s
  numbered : Numbered s

namespace Attended
variable {s t : UDPTracker ι} {e : Event ι}

omit [DecidableEq ι] in
theorem new : Attended (newUDPTracker : UDPTracker ι) := by
  refine ⟨?_,.new⟩
  rintro y ⟨⟩

theorem step (hs : Attended s) (hg : FailsUnnoticed s e) (h : step s e = some t) : Attended t := by
  refine ⟨?_,hs.numbered.step h⟩
  rcases step_cases h with ⟨i,scrape,rfl,-,rfl⟩ | ⟨i,y,scrape,rfl,hi,rfl⟩ | ⟨-,hcalm⟩
  · rintro y ⟨⟩
    exact .inl ⟨i,holds_moveTo.mpr (.inl ⟨rfl,rfl⟩)⟩
  · intro x hx
    rcases hs.served x hx with ⟨j,hj⟩ | hr
    · by_cases hji : j = i
      · subst hji
        rw [hi] at hj
        cases hj
        exact .inr (hg y scrape hi hx)
      · exact .inl ⟨j,holds_moveTo.mpr (.inr ⟨hji,hj⟩)⟩
    · exact .inr hr
  · intro y hy
    rcases hcalm.conn with heq | hnone
    · rcases hs.served y (heq ▸ hy) with ⟨i,hi⟩ | hr
      · exact (hcalm.kept i y hy hi).imp_left (fun ht => ⟨i,ht⟩)
      · exact .inr (hcalm.read y hy hr)
    · cases hnone.symm.trans hy

/-- Nobody else starts a loop on a socket whose call has failed. -/
theorem unnoticed_of_served (hs : Attended s) (h : Connection.step s e = some t) (ht : Served t) :
    FailsUnnoticed s e := by
  rcases step_cases h with ⟨i,scrape,rfl,-,-⟩ | ⟨i,y,scrape,rfl,hi,rfl⟩ | ⟨hne,-⟩
  · trivial
  · intro x scrape' hx hconn
    rcases ht x hconn with ⟨j,hj⟩ | hr
    · rcases holds_moveTo.mp hj with ⟨-,hj⟩ | ⟨hji,hj⟩
      · cases hj
      · exact absurd (hs.numbered.single j i x hj (by rw [hx]; rfl)) hji
    · exact hr
  · unfold FailsUnnoticed
    split
    · intro y scrape _ hconn
      exact absurd hconn (hne _ y rfl)
    · trivial

end Attended

inductive FailurePoint
  | resolve
  | dial
  | send
  deriving DecidableEq, Repr

/-- The steps of a `connect` that nobody interrupts. -/
def FailurePoint.events (i : ι) : FailurePoint → List (Event ι)
  | .resolve => [.resolve i false]
  | .dial => [.resolve i true,.dial i false]
  | .send => [.resolve i true,.dial i true,.compare i,.send i false]

section Undone
variable {s t : UDPTracker ι} {i : ι} {e : Event ι}

/-- The steps of `connect` other than storing the socket leave the connection alone. -/
theorem connect_step (h : step s e = some t)
    (he : (∃ ok, e = .resolve i ok) ∨ e = .dial i false ∨ e = .compare i ∨ ∃ ok, e = .send i ok) :
    t.conn = s.conn ∧ t.connectionID = s.connectionID := by
  obtain ⟨-,h⟩ := act_of_step h
  rcases he with ⟨ok,rfl⟩ | rfl | rfl | ⟨ok,rfl⟩
  · simp only [act] at h
    split at h
    · cases h
      exact ⟨rfl,rfl⟩
    · cases h
  · simp only [act] at h
    split at h
    · cases h
      exact ⟨rfl,rfl⟩
    · cases h
  · simp only [act] at h
    split at h
    · cases h
      split <;> exact ⟨rfl,rfl⟩
    · cases h
  · simp only [act] at h
    split at h
    · cases h
      split
      · exact ⟨rfl,rfl⟩
      · split <;> exact ⟨rfl,rfl⟩
    · cases h

theorem conn_dial (h : step s (.dial i true) = some t) : t.conn = some s.dialed := by
  obtain ⟨-,h⟩ := act_of_step h
  simp only [act] at h
  split at h
  · cases h
    rfl
  · cases h

theorem connect_undone_iff (point : FailurePoint) (hconn : s.conn = none)
    (h : run step s (point.events i) = some t) :
    (t.conn = s.conn ∧ t.connectionID = s.connectionID) ↔ point ≠ .send := by
  cases point with
  | resolve =>
    obtain ⟨u,hu,⟨⟩⟩ := Option.bind_eq_some_iff.mp h
    exact iff_of_true (connect_step hu (.inl ⟨_,rfl⟩)) (by decide)
  | dial =>
    obtain ⟨u,hu,h⟩ := Option.bind_eq_some_iff.mp h
    obtain ⟨v,hv,⟨⟩⟩ := Option.bind_eq_some_iff.mp h
    obtain ⟨hc,hid⟩ := connect_step hu (.inl ⟨_,rfl⟩)
    obtain ⟨hc',hid'⟩ := connect_step hv (.inr (.inl rfl))
    exact iff_of_true ⟨hc'.trans hc,hid'.trans hid⟩ (by decide)
  | send =>
    obtain ⟨u,hu,h⟩ := Option.bind_eq_some_iff.mp h
    obtain ⟨v,hv,h⟩ := Option.bind_eq_some_iff.mp h
    obtain ⟨w,hw,h⟩ := Option.bind_eq_some_iff.mp h
    obtain ⟨x,hx,⟨⟩⟩ := Option.bind_eq_some_iff.mp h
    have hw := (connect_step hw (.inr (.inr (.inl rfl)))).1
    have hx := (connect_step hx (.inr (.inr (.inr ⟨_,rfl⟩)))).1
    have hstored : t.conn = some u.dialed := hx.trans (hw.trans (conn_dial hv))
    apply iff_of_false
    · rintro ⟨hc,-⟩
      cases hstored.symm.trans (hc.trans hconn)
    · exact fun h => h rfl

end Undone

/-- A connection is served throughout exactly the runs in which no connect request fails on a connection
that nobody reads from; and a `connect` that fails leaves everything as it was if it fails before that
request. -/
theorem served_throughout_iff (es : List (Event ι)) (s : UDPTracker ι) (hrun : run step newUDPTracker es = some s) :
    (Throughout step Served newUDPTracker es ↔ Guarded step FailsUnnoticed newUDPTracker es) ∧
    (∀ i (point : FailurePoint) t, s.conn = none → run step s (point.events i) = some t →
      ((t.conn = s.conn ∧ t.connectionID = s.connectionID) ↔ point ≠ .send)) := by
  refine ⟨?_,fun i point t hconn h => connect_undone_iff point hconn h⟩
  exact throughout_iff_guarded Attended.served (fun hs _ hg h => hs.step hg h)
    (fun hs _ h hP => hs.unnoticed_of_served h hP) .new hrun (guarded_free _ _ _)

section Sample

/-- Two calls connect beside each other. The request of the one whose socket was replaced fails, and
the other one goes on. -/
def replacedSocket : List (Event Bool) :=
  [.scrape true,.start false,.resolve true true,.resolve false true,.dial true true,.dial false true,
    .compare true,.compare false,.send false true,.read 1,.send true false,
    .scrape true,.check true,.connected 1 7,.handover 1 true,.read 1,.request true,.write true,
    .scraped 1 true,.delivered 1,.stop]

def failsOnLost (s : UDPTracker ι) : Event ι → Bool
  | .send i false =>
    match s.calls i with
    | .sending y _ => s.conn != some y
    | _ => true
  | _ => true

omit [DecidableEq ι] in
theorem failsUnnoticed_of_lost {s : UDPTracker ι} {e : Event ι} (h : failsOnLost s e = true) : FailsUnnoticed s e := by
  unfold FailsUnnoticed
  split
  · intro y scrape hi hconn
    simp [failsOnLost,hi,hconn] at h
  · trivial

theorem replacedSocket_served : ∃ s, run step newUDPTracker replacedSocket = some s ∧ s.crashed = false ∧
    Throughout step Served newUDPTracker replacedSocket := by
  obtain ⟨hserved,-⟩ := served_throughout_iff replacedSocket _ rfl
  have hlost : Guarded step (failsOnLost · · = true) newUDPTracker replacedSocket := by decide
  exact ⟨_,rfl,rfl,hserved.mpr (hlost.mono failsUnnoticed_of_lost)⟩

/-- A connect request fails, and the next `Scrape` waits while no loop runs; and another one fails
behind a `Stop`, when the loop of the first connection still offers its token. -/
theorem failed_request_left_waiting :
    (∃ s : UDPTracker Bool,
      run step newUDPTracker [.scrape true,.resolve true true,.dial true true,.compare true,.send true false,
        .scrape false,.check false] = some s ∧
      s.conn = some 0 ∧ s.calls false = .waiting ∧ (∀ n, s.loops n = .absent) ∧ ¬ Served s) ∧
    ∃ s : UDPTracker Bool,
      run step newUDPTracker [.start true,.resolve true true,.dial true true,.compare true,.send true true,.read 0,
        .connected 0 7,.stop,.start true,.resolve true true,.dial true true,.compare true,.send true false] = some s ∧
      s.conn = some 1 ∧ s.connectionID = 0 ∧ s.loops 0 = .offering 0 ∧ ¬ Served s := by
  constructor
  · refine ⟨_,rfl,rfl,rfl,fun _ => rfl,?_⟩
    intro h
    rcases h 0 rfl with ⟨i,hi⟩ | ⟨n,hn⟩
    · cases i <;> cases hi
    · cases hn
  · refine ⟨_,rfl,rfl,rfl,rfl,?_⟩
    intro h
    rcases h 1 rfl with ⟨i,hi⟩ | ⟨n,hn⟩
    · cases i <;> cases hi
    · match n with
      | 0 => cases hn
      | n+1 => cases hn

end Sample

end DhtOcean.Tracker.Connection
