import Mathlib.Logic.ExistsUnique
import Mathlib.Logic.Function.Basic
import Mathlib.Data.Nat.Notation
import DhtOcean.Foundation.Transition

/-! # Who closes the crawler's socket

The send loop opens sockets and starts a listener for each. The loop and every
listener close, after an error, whatever socket the crawler holds at that moment.
For the loop this is the socket it wrote to, because nobody else opens one; a
listener may find that its own socket has been replaced.
-/
namespace DhtOcean.Socket
open Foundation

/-- The field `conn`. A failed `net.ListenUDP` leaves a nil pointer in it, which is not the
nil interface; to write to it or to close it ends the process. -/
inductive Conn
  | null
  | typedNil
  | socket (i : ℕ)
  deriving DecidableEq

/-- Why a socket was closed: a failed read of a listener's socket, a failed write, or `Stop`. -/
inductive Cause
  | read (i : ℕ)
  | write (conn : Conn)
  | stop
  deriving DecidableEq

/-- A listener has `failed` between its read error and its call of `disconnect`. -/
inductive ListenPhase
  | reading
  | failed
  | done
  deriving DecidableEq

structure Listener where
  socket : ℕ
  phase : ListenPhase

/-- The sockets opened so far, those closed among them, and the listeners started so far. -/
structure Sockets where
  conn : Conn
  opened : ℕ
  closedBy : ℕ → Option Cause
  spawned : ℕ
  listeners : ℕ → Option Listener

/-- Where `sendLoop` is. It reads `conn` for its check and again for the write, both without the lock. -/
inductive SendPhase
  | notStarted
  | idle
  | connecting
  | ready
  | writing (conn : Conn)
  | failed (conn : Conn)
  | stopped
  | crashed
  deriving DecidableEq

structure Crawler where
  proxied : Bool
  sockets : Sockets
  send : SendPhase
  cancelled : Bool

inductive Event
  | start (ok : Bool)
  | check
  | connect (ok : Bool)
  | load
  | wrote (ok : Bool)
  | writeDisconnect
  | readError (g : ℕ)
  | readDisconnect (g : ℕ)
  | stop
  | quit

def newCrawler (proxied : Bool) : Crawler where
  proxied := proxied
  sockets := ⟨.null,0,fun _ => none,0,fun _ => none⟩
  send := .notStarted
  cancelled := false

/-- `_connect`, where `ok` is the success of the `ListenUDP` in use. -/
def connect (proxied ok : Bool) (s : Sockets) : Sockets :=
  if s.conn ≠ .null then s
  else if ok then
    { s with
      conn := .socket s.opened
      opened := s.opened + 1
      listeners := Function.update s.listeners s.spawned (some ⟨s.opened,.reading⟩)
      spawned := s.spawned + 1 }
  else { s with conn := if proxied then .null else .typedNil }

/-- `connect` returns no error. -/
def connected (ok : Bool) (s : Sockets) : Bool := s.conn ≠ .null ∨ ok = true

/-- `_disconnect`, unless its `Close` panics. A second `Close` of a socket has no effect. -/
def disconnect (cause : Cause) (s : Sockets) : Sockets :=
  match s.conn with
  | .socket i =>
    { s with conn := .null, closedBy := Function.update s.closedBy i ((s.closedBy i).or (some cause)) }
  | _ => s

def setPhase (g : ℕ) (phase : ListenPhase) (s : Sockets) : Sockets :=
  { s with listeners := Function.update s.listeners g ((s.listeners g).map fun l => { l with phase := phase }) }

def isOpen (s : Sockets) : Conn → Bool
  | .socket i => (s.closedBy i).isNone
  | _ => false

/-- Somebody calls `disconnect` and goes on to `t`, if `Close` lets them. -/
def whenClosed (s t : Crawler) : Crawler :=
  if s.sockets.conn = .typedNil then { s with send := .crashed } else t

def step (s : Crawler) (e : Event) : Option Crawler :=
  if s.send = .crashed then none
  else match e with
  | .start ok =>
    if s.send = .notStarted then
      some { s with sockets := connect s.proxied ok s.sockets, send := if connected ok s.sockets then .idle else .crashed }
    else none
  | .check =>
    if s.send = .idle then some { s with send := if s.sockets.conn = .null then .connecting else .ready } else none
  | .connect ok =>
    if s.send = .connecting then
      some { s with sockets := connect s.proxied ok s.sockets, send := if connected ok s.sockets then .ready else .idle }
    else none
  | .load =>
    -- A listener may have reset the field since the check; a call on either nil panics.
    if s.send = .ready then
      some { s with
        send := if s.sockets.conn = .null ∨ s.sockets.conn = .typedNil then .crashed else .writing s.sockets.conn }
    else none
  | .wrote ok =>
    match s.send with
    | .writing c =>
      if ok = true ∧ isOpen s.sockets c = false then none else some { s with send := if ok then .idle else .failed c }
    | _ => none
  | .writeDisconnect =>
    match s.send with
    | .failed c => some (whenClosed s { s with sockets := disconnect (.write c) s.sockets, send := .idle })
    | _ => none
  | .readError g =>
    match s.sockets.listeners g with
    | some ⟨_,.reading⟩ => some { s with sockets := setPhase g .failed s.sockets }
    | _ => none
  | .readDisconnect g =>
    match s.sockets.listeners g with
    | some ⟨i,.failed⟩ => some (whenClosed s { s with sockets := setPhase g .done (disconnect (.read i) s.sockets) })
    | _ => none
  | .stop => some (whenClosed s { s with sockets := disconnect .stop s.sockets, cancelled := true })
  | .quit => if s.send = .idle ∧ s.cancelled then some { s with send := .stopped } else none

/-- The listener has not returned. -/
def Running (s : Sockets) (g i : ℕ) : Prop := ∃ phase, s.listeners g = some ⟨i,phase⟩ ∧ phase ≠ .done

/-- A legitimate reason to close socket `i`. -/
def Justified (i : ℕ) (c : Cause) : Prop := c = .stop ∨ c = .read i ∨ c = .write (.socket i)

/-- Sockets are closed for a reason of their own, and the one in use is open and listened to. -/
structure Owned (s : Sockets) : Prop where
  closed : ∀ i c, s.closedBy i = some c → Justified i c
  inUse : s.conn ≠ .null → ∃ i, s.conn = .socket i ∧ s.closedBy i = none ∧ ∃! g, Running s g i

/-- Opening a socket directly does not fail, and a listener calls `disconnect` only while the
crawler holds its own socket or none. -/
def Owner (s : Crawler) : Event → Prop
  | .start ok => ok = false → s.sockets.conn = .null → s.proxied = true
  | .connect ok => ok = false → s.sockets.conn = .null → s.proxied = true
  | .readDisconnect g => ∀ l j, s.sockets.listeners g = some l → s.sockets.conn = .socket j → j = l.socket
  | _ => True

/-- The loop is at a write to `c`, or behind it with an error. -/
def Holding (send : SendPhase) (c : Conn) : Prop := send = .writing c ∨ send = .failed c

theorem step_cases {s t : Crawler} {e : Event} (h : step s e = some t) :
    (∃ ok send, (e = .start ok ∨ e = .connect ok) ∧ (∀ c, ¬ Holding send c) ∧
      t = { s with sockets := connect s.proxied ok s.sockets, send := send }) ∨
    (∃ send, Owner s e ∧ (∀ c, Holding send c → c = s.sockets.conn ∨ Holding s.send c) ∧
      t = { s with send := send }) ∨
    (∃ c, e = .writeDisconnect ∧ s.send = .failed c ∧
      t = { s with sockets := disconnect (.write c) s.sockets, send := .idle }) ∨
    (∃ g, e = .readError g ∧ t = { s with sockets := setPhase g .failed s.sockets }) ∨
    (∃ g i, e = .readDisconnect g ∧ s.sockets.listeners g = some ⟨i,.failed⟩ ∧
      t = { s with sockets := setPhase g .done (disconnect (.read i) s.sockets) }) ∨
    (e = .stop ∧ t = { s with sockets := disconnect .stop s.sockets, cancelled := true }) := by
  -- Whoever finds the nil pointer at `disconnect` ends the process instead.
  have hclose : ∀ {u}, Owner s e ∨ s.sockets.conn ≠ .typedNil → whenClosed s u = t →
      (∃ send, Owner s e ∧ (∀ c, Holding send c → c = s.sockets.conn ∨ Holding s.send c) ∧
        t = { s with send := send }) ∨ u = t := by
    intro u hor h
    unfold whenClosed at h
    split at h
    · rename_i hnil
      exact .inl ⟨.crashed,hor.resolve_right (not_not.mpr hnil),by simp [Holding],h.symm⟩
    · exact .inr h
  unfold step at h
  split at h
  · cases h
  cases e with
  | start ok =>
    simp only [Option.ite_none_right_eq_some,Option.some.injEq] at h
    refine .inl ⟨ok,_,.inl rfl,?_,h.2.symm⟩
    intro c
    split <;> simp [Holding]
  | check =>
    simp only [Option.ite_none_right_eq_some,Option.some.injEq] at h
    refine .inr (.inl ⟨_,trivial,?_,h.2.symm⟩)
    intro c
    split <;> simp [Holding]
  | connect ok =>
    simp only [Option.ite_none_right_eq_some,Option.some.injEq] at h
    refine .inl ⟨ok,_,.inr rfl,?_,h.2.symm⟩
    intro c
    split <;> simp [Holding]
  | load =>
    simp only [Option.ite_none_right_eq_some,Option.some.injEq] at h
    refine .inr (.inl ⟨_,trivial,?_,h.2.symm⟩)
    intro c
    split <;> simp +contextual [Holding]
  | wrote ok =>
    dsimp only at h
    split at h
    · rename_i c hsend
      simp only [Option.ite_none_left_eq_some,Option.some.injEq] at h
      refine .inr (.inl ⟨_,trivial,?_,h.2.symm⟩)
      intro c'
      cases ok <;> simp +contextual [Holding,hsend]
    · cases h
  | writeDisconnect =>
    dsimp only at h
    split at h
    · rename_i c hsend
      rcases hclose (.inl trivial) (Option.some.inj h) with hcrash | rfl
      · exact .inr (.inl hcrash)
      · exact .inr (.inr (.inl ⟨c,rfl,hsend,rfl⟩))
    · cases h
  | readError g =>
    dsimp only at h
    split at h
    · exact .inr (.inr (.inr (.inl ⟨g,rfl,(Option.some.inj h).symm⟩)))
    · cases h
  | readDisconnect g =>
    dsimp only at h
    split at h
    · rename_i i hl
      have howner : Owner s (.readDisconnect g) ∨ s.sockets.conn ≠ .typedNil := by
        by_cases hnil : s.sockets.conn = .typedNil
        · refine .inl fun l j _ hj => ?_
          cases hnil.symm.trans hj
        · exact .inr hnil
      rcases hclose howner (Option.some.inj h) with hcrash | rfl
      · exact .inr (.inl hcrash)
      · exact .inr (.inr (.inr (.inr (.inl ⟨g,i,rfl,hl,rfl⟩))))
    · cases h
  | stop =>
    rcases hclose (.inl trivial) (Option.some.inj h) with hcrash | rfl
    · exact .inr (.inl hcrash)
    · exact .inr (.inr (.inr (.inr (.inr ⟨rfl,rfl⟩))))
  | quit =>
    simp only [Option.ite_none_right_eq_some,Option.some.injEq] at h
    refine .inr (.inl ⟨_,trivial,?_,h.2.symm⟩)
    simp [Holding]

section Sockets
variable {s : Sockets}

/-- The invariant behind ownership: sockets and listeners are numbered in order, and no two
listeners share a socket. -/
structure Sound (s : Sockets) : Prop where
  closed : ∀ i c, s.closedBy i = some c → Justified i c
  real : s.conn ≠ .typedNil
  isOpen : ∀ i, s.conn = .socket i → s.closedBy i = none
  heard : ∀ i, s.conn = .socket i → ∃ g, Running s g i
  unopened : ∀ i, s.opened ≤ i → s.closedBy i = none
  unspawned : ∀ g, s.spawned ≤ g → s.listeners g = none
  known : ∀ g l, s.listeners g = some l → l.socket < s.opened
  single : ∀ g g' l l', s.listeners g = some l → s.listeners g' = some l' → l.socket = l'.socket → g = g'

theorem Sound.owned (hs : Sound s) : Owned s := by
  refine ⟨hs.closed,?_⟩
  intro hconn
  cases hc : s.conn with
  | null => exact absurd hc hconn
  | typedNil => exact absurd hc hs.real
  | socket i =>
    obtain ⟨g,hg⟩ := hs.heard i hc
    refine ⟨i,rfl,hs.isOpen i hc,g,hg,?_⟩
    rintro g' ⟨phase',hg',-⟩
    obtain ⟨phase,hl,-⟩ := hg
    exact hs.single g' g _ _ hg' hl rfl

theorem disconnect_conn (cause : Cause) (h : s.conn ≠ .typedNil) : (disconnect cause s).conn = .null := by
  unfold disconnect
  split
  · rfl
  · rename_i hsocket
    cases hc : s.conn with
    | null => rfl
    | typedNil => exact absurd hc h
    | socket i => exact absurd hc (hsocket i)

@[simp] theorem disconnect_listeners (cause : Cause) (s : Sockets) :
    (disconnect cause s).listeners = s.listeners := by
  unfold disconnect
  split <;> rfl

theorem Sound.lt_opened (hs : Sound s) {i : ℕ} (h : s.conn = .socket i) : i < s.opened := by
  obtain ⟨g,phase,hl,-⟩ := hs.heard i h
  exact hs.known g _ hl

theorem disconnect_open {cause : Cause} {i : ℕ} (hconn : s.conn = .socket i) (hopen : s.closedBy i = none) :
    disconnect cause s = { s with conn := .null, closedBy := Function.update s.closedBy i (some cause) } := by
  simp [disconnect,hconn,hopen]

theorem Sound.disconnect (hs : Sound s) {cause : Cause} (hc : ∀ i, s.conn = .socket i → Justified i cause) :
    Sound (disconnect cause s) := by
  cases hconn : s.conn with
  | socket i =>
    rw [disconnect_open hconn (hs.isOpen i hconn)]
    refine ⟨?_,by simp,by simp,by simp,?_,hs.unspawned,hs.known,hs.single⟩
    · intro j c hj
      by_cases hij : j = i
      · subst hij
        obtain rfl : cause = c := by simpa using hj
        exact hc j hconn
      · exact hs.closed j c (by simpa [hij] using hj)
    · intro j hj
      have hne : j ≠ i := Nat.ne_of_gt (Nat.lt_of_lt_of_le (hs.lt_opened hconn) hj)
      simpa [hne] using hs.unopened j hj
  | null =>
    simp only [Socket.disconnect,hconn]
    exact hs
  | typedNil => exact absurd hconn hs.real

/-- Behind a connect there are the old listeners, on old sockets, and one new on the new socket. -/
theorem Sound.listener_cases (hs : Sound s) {g : ℕ} {l : Listener}
    (h : Function.update s.listeners s.spawned (some ⟨s.opened,.reading⟩) g = some l) :
    (g = s.spawned ∧ l = ⟨s.opened,.reading⟩) ∨ (s.listeners g = some l ∧ l.socket < s.opened) := by
  by_cases hg : g = s.spawned
  · subst hg
    exact .inl ⟨rfl,by simpa using h.symm⟩
  · have hl : s.listeners g = some l := by simpa [hg] using h
    exact .inr ⟨hl,hs.known g l hl⟩

/-- The new socket and its listener are the first of their numbers. -/
theorem Sound.connect (hs : Sound s) {proxied ok : Bool}
    (hp : ok = false → s.conn = .null → proxied = true) : Sound (connect proxied ok s) := by
  unfold Socket.connect
  split
  · exact hs
  rename_i hnull
  rw [not_not] at hnull
  split
  · rename_i hok
    refine ⟨hs.closed,by simp,?_,?_,?_,?_,?_,?_⟩
    · rintro i ⟨⟩
      exact hs.unopened _ (Nat.le_refl _)
    · rintro i ⟨⟩
      exact ⟨s.spawned,.reading,by simp,by simp⟩
    · intro i hi
      exact hs.unopened i (Nat.le_of_succ_le hi)
    · intro g hg
      have hne : g ≠ s.spawned := Nat.ne_of_gt hg
      simpa [hne] using hs.unspawned g (Nat.le_of_succ_le hg)
    · intro g l hl
      rcases hs.listener_cases hl with ⟨-,rfl⟩ | ⟨-,hlt⟩
      · exact Nat.lt_succ_self _
      · exact Nat.lt_succ_of_lt hlt
    · intro g g' l l' hl hl' he
      rcases hs.listener_cases hl with ⟨rfl,rfl⟩ | ⟨hg,hlt⟩
      · rcases hs.listener_cases hl' with ⟨rfl,-⟩ | ⟨-,hlt⟩
        · rfl
        · exact absurd he (Nat.ne_of_gt hlt)
      · rcases hs.listener_cases hl' with ⟨rfl,rfl⟩ | ⟨hg',-⟩
        · exact absurd he (Nat.ne_of_lt hlt)
        · exact hs.single g g' l l' hg hg' he
  · rename_i hok
    have hproxied : proxied = true := hp (by simpa using hok) hnull
    simp only [hproxied,if_true]
    exact ⟨hs.closed,by simp,by simp,by simp,hs.unopened,hs.unspawned,hs.known,hs.single⟩

theorem setPhase_listeners {g g' : ℕ} {phase : ListenPhase} {l : Listener}
    (h : (setPhase g phase s).listeners g' = some l) :
    ∃ l', s.listeners g' = some l' ∧ l.socket = l'.socket := by
  by_cases hg : g' = g
  · subst hg
    simp only [setPhase,Function.update_self,Option.map_eq_some_iff] at h
    obtain ⟨l',hl',rfl⟩ := h
    exact ⟨l',hl',rfl⟩
  · exact ⟨l,by simpa [setPhase,hg] using h,rfl⟩

/-- A listener returns only after its socket is out of use. -/
theorem Sound.setPhase (hs : Sound s) {g : ℕ} {phase : ListenPhase}
    (h : phase = .done → s.conn = .null) : Sound (setPhase g phase s) := by
  refine ⟨hs.closed,hs.real,hs.isOpen,?_,hs.unopened,?_,?_,?_⟩
  · intro i hi
    obtain ⟨g',phase',hl,hdone⟩ := hs.heard i hi
    by_cases hg : g' = g
    · subst hg
      refine ⟨g',phase,by simp [Socket.setPhase,hl],?_⟩
      intro hp
      have hnull : s.conn = .null := h hp
      have hi' : s.conn = .socket i := hi
      rw [hnull] at hi'
      cases hi'
    · exact ⟨g',phase',by simpa [Socket.setPhase,hg] using hl,hdone⟩
  · intro g' hg'
    cases hl : (Socket.setPhase g phase s).listeners g' with
    | none => rfl
    | some l =>
      obtain ⟨l',hl',-⟩ := setPhase_listeners hl
      rw [hs.unspawned g' hg'] at hl'
      cases hl'
  · intro g' l hl
    obtain ⟨l',hl',he⟩ := setPhase_listeners hl
    rw [he]
    exact hs.known g' l' hl'
  · intro g₁ g₂ l₁ l₂ h₁ h₂ he
    obtain ⟨l₁',h₁',he₁⟩ := setPhase_listeners h₁
    obtain ⟨l₂',h₂',he₂⟩ := setPhase_listeners h₂
    exact hs.single g₁ g₂ l₁' l₂' h₁' h₂' (he₁.symm.trans (he.trans he₂))

end Sockets

/-- Nobody else opens a socket while the loop is at a write. -/
structure Steady (s : Crawler) : Prop where
  sound : Sound s.sockets
  held : ∀ c, Holding s.send c → s.sockets.conn = .null ∨ s.sockets.conn = c

theorem newCrawler_steady (proxied : Bool) : Steady (newCrawler proxied) := by
  refine ⟨⟨?_,?_,?_,?_,?_,?_,?_,?_⟩,?_⟩ <;> simp [newCrawler,Holding]

theorem Steady.next {s t : Crawler} {e : Event} (hs : Steady s) (hg : Owner s e) (h : step s e = some t) :
    Steady t := by
  rcases step_cases h with ⟨ok,send,he,hsend,rfl⟩ | ⟨send,-,hsend,rfl⟩ | ⟨c,-,hfail,rfl⟩ | ⟨g,-,rfl⟩ |
    ⟨g,i,rfl,hl,rfl⟩ | ⟨-,rfl⟩
  · refine ⟨hs.sound.connect ?_,fun c hc => absurd hc (hsend c)⟩
    rcases he with rfl | rfl <;> exact hg
  · refine ⟨hs.sound,?_⟩
    intro c hc
    rcases hsend c hc with rfl | hold
    · exact .inr rfl
    · exact hs.held c hold
  · refine ⟨hs.sound.disconnect ?_,by simp [Holding]⟩
    intro i hi
    rcases hs.held c (.inr hfail) with hnull | heq
    · rw [hnull] at hi
      cases hi
    · rw [← heq,hi]
      exact .inr (.inr rfl)
  · exact ⟨hs.sound.setPhase (by simp),hs.held⟩
  · have hnull := disconnect_conn (.read i) hs.sound.real
    refine ⟨(hs.sound.disconnect ?_).setPhase fun _ => hnull,fun _ _ => .inl hnull⟩
    intro j hj
    obtain rfl : j = i := hg ⟨i,.failed⟩ j hl hj
    exact .inr (.inl rfl)
  · exact ⟨hs.sound.disconnect (fun _ _ => .inl rfl),fun _ _ => .inl (disconnect_conn .stop hs.sound.real)⟩

theorem reach_steady {proxied : Bool} {s : Crawler} (hs : Reach step Owner (newCrawler proxied) s) : Steady s := by
  refine hs.invariant (P := Steady) (newCrawler_steady proxied) ?_
  intro s e t hsteady hg he
  exact hsteady.next hg he

/-- A failed direct connect, or the late call of an old listener, breaks ownership at once. -/
theorem Steady.owner_of_owned {s t : Crawler} {e : Event} (hs : Steady s) (h : step s e = some t)
    (ht : Owned t.sockets) : Owner s e := by
  rcases step_cases h with ⟨ok,send,he,-,rfl⟩ | ⟨send,howner,-,-⟩ | ⟨c,rfl,-,-⟩ | ⟨g,rfl,-⟩ |
    ⟨g,i,rfl,hl,rfl⟩ | ⟨rfl,-⟩
  · have hp : ok = false → s.sockets.conn = .null → s.proxied = true := by
      intro hok hnull
      by_contra hdirect
      have hconn : (connect s.proxied ok s.sockets).conn = .typedNil := by simp [connect,hok,hnull,hdirect]
      obtain ⟨i,hi,-⟩ := ht.inUse (by simp [hconn])
      rw [hconn] at hi
      cases hi
    rcases he with rfl | rfl <;> exact hp
  · exact howner
  · trivial
  · trivial
  · intro l j hl' hj
    obtain rfl : ⟨i,.failed⟩ = l := Option.some.inj (hl.symm.trans hl')
    have hclosed : (disconnect (.read i) s.sockets).closedBy j = some (.read i) := by
      rw [disconnect_open hj (hs.sound.isOpen j hj)]
      simp
    rcases ht.closed j (.read i) hclosed with hc | hc | hc
    · cases hc
    · exact (Cause.read.inj hc).symm
    · cases hc
  · trivial

/-- Ownership holds in every run in which direct connects succeed and listeners call `disconnect` in
time; a step that breaks this rule breaks ownership. -/
theorem socket_owned_iff_owner (proxied : Bool) :
    (∀ s, Reach step Owner (newCrawler proxied) s → Owned s.sockets) ∧
    (∀ s e t, Reach step Owner (newCrawler proxied) s → step s e = some t →
      (Owned t.sockets ↔ Owner s e)) := by
  refine ⟨fun s hs => (reach_steady hs).sound.owned,?_⟩
  intro s e t hs h
  constructor
  · intro ht
    exact (reach_steady hs).owner_of_owned h ht
  · intro hg
    exact ((reach_steady hs).next hg h).sound.owned

/-- An old listener closes the second socket, and a failed connect leaves a field that is not nil. -/
theorem disconnect_closes_newer :
    (∃ s, Reach step (Free _ _) (newCrawler false) s ∧ s.sockets.closedBy 1 = some (.read 0)) ∧
    (∃ s, Reach step (Free _ _) (newCrawler false) s ∧ s.send = .idle ∧ s.sockets.conn = .typedNil) := by
  constructor
  · exact ⟨_,Reach.of_run [.start true,.check,.load,.wrote false,.writeDisconnect,.readError 0,.check,.connect true,
      .readDisconnect 0] rfl,rfl⟩
  · exact ⟨_,Reach.of_run [.start true,.check,.load,.wrote false,.writeDisconnect,.check,.connect false] rfl,rfl,rfl⟩

end DhtOcean.Socket
