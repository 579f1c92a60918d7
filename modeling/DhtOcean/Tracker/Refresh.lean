import DhtOcean.Foundation.Bytes
import DhtOcean.Foundation.Transition

/-! # The permit of the refresh loop

`fetch` takes a token from a channel of capacity one and calls `refreshTracker`,
whose deferred function sends the next token itself or leaves that to a timer. Only
`fetch` takes tokens, so a second one would block it in its own send. There is no
second one: whoever has the permit hands it on exactly once.
-/
namespace DhtOcean.Tracker.Refresh
open Foundation

/-- Where the goroutine of `fetch` is: in its select, in front of one of the calls of `refreshTracker`,
in the deferred function, or at its end. The records are given by their hashes, and there are none
unless `getRecords` has returned some. -/
inductive Fetch
  | select
  | getRecords
  | updateMany (records : List Bytes)
  | scrape (records : List Bytes)
  | deferred (records : List Bytes)
  | returned
  deriving DecidableEq

structure System where
  /-- `Start` has yet to send the first token. -/
  starting : Bool
  /-- The tokens in the channel. -/
  needUpdate : ℕ
  fetch : Fetch
  /-- The calls of `refreshTracker` that have begun and not ended. -/
  calls : ℕ
  timers : ℕ
  /-- The goroutines of timers that have fired, in front of their send. -/
  fired : ℕ
  cancelled : Bool

/-- `Start`, once it has started the goroutines. -/
def initial : System := ⟨true,0,.select,0,0,0,false⟩

inductive Event
  | start
  | receive
  | getRecords (result : Option (List Bytes))
  | updateMany (ok : Bool)
  | scrape (ok : Bool)
  | deferred
  | fire
  | timerSend
  | stop
  | done
  deriving DecidableEq

/-- A send on `needUpdate`, which has to wait while the channel is full. -/
def send (s : System) : Option System :=
  if s.needUpdate < 1 then some { s with needUpdate := s.needUpdate + 1 } else none

/-- The call of `refreshTracker` ends with the last act of its deferred function. Its return is not a step
of its own, since nobody but `fetch` itself could take the token before it. -/
def endCall (s : System) : System := { s with fetch := .select, calls := s.calls - 1 }

def step (s : System) : Event → Option System
  | .start => if s.starting then (send s).map ({ · with starting := false }) else none
  | .receive =>
    if s.fetch = .select ∧ 0 < s.needUpdate then
      some { s with needUpdate := s.needUpdate - 1, fetch := .getRecords, calls := s.calls + 1 }
    else none
  | .getRecords result =>
    match s.fetch, result with
    | .getRecords, some records => some { s with fetch := .updateMany records }
    | .getRecords, none => some { s with fetch := .deferred [] }
    | _, _ => none
  | .updateMany ok =>
    match s.fetch with
    | .updateMany records => some { s with fetch := if ok then .scrape records else .deferred records }
    | _ => none
  -- An error of `Scrape` is only logged.
  | .scrape _ =>
    match s.fetch with
    | .scrape records => some { s with fetch := .deferred records }
    | _ => none
  | .deferred =>
    match s.fetch with
    | .deferred [] => some (endCall { s with timers := s.timers + 1 })
    | .deferred (_ :: _) => (send s).map endCall
    | _ => none
  | .fire => if 0 < s.timers then some { s with timers := s.timers - 1, fired := s.fired + 1 } else none
  | .timerSend => if 0 < s.fired then (send s).map ({ · with fired := s.fired - 1 }) else none
  | .stop => some { s with cancelled := true }
  | .done => if s.fetch = .select ∧ s.cancelled then some { s with fetch := .returned } else none

def pending (s : System) : ℕ := s.timers + s.fired

def inCall : Fetch → Bool
  | .select => false
  | .returned => false
  | _ => true

/-- A goroutine is about to send, and this is how it goes on. -/
def Sends (s : System) : Event → Prop
  | .start => s.starting = true
  | .deferred => ∃ r records, s.fetch = .deferred (r :: records)
  | .timerSend => 0 < s.fired
  | _ => False

/-- The token in the channel, the call, and the timer: one of the three, once. -/
def ExactlyOne (s : System) : Prop :=
  s.needUpdate = 1 ∧ s.calls = 0 ∧ pending s = 0 ∨
  s.needUpdate = 0 ∧ s.calls = 1 ∧ pending s = 0 ∨
  s.needUpdate = 0 ∧ s.calls = 0 ∧ pending s = 1

/-- Before the first send the permit is with `Start`. -/
structure OnePermit (s : System) : Prop where
  permit : s.starting.toNat + s.needUpdate + s.calls + pending s = 1
  calls : s.calls = (inCall s.fetch).toNat

section Step
variable {s t : System}

theorem send_eq_some : send s = some t ↔ s.needUpdate = 0 ∧ t = { s with needUpdate := 1 } := by
  unfold send
  constructor
  · intro h
    obtain ⟨hroom,h⟩ := (Option.ite_none_right_eq_some ..).mp h
    obtain rfl := Option.some.inj h
    have hempty : s.needUpdate = 0 := by omega
    exact ⟨hempty,by simp [hempty]⟩
  · rintro ⟨hempty,rfl⟩
    simp [hempty]

theorem OnePermit.receive (hs : OnePermit s) (h : step s .receive = some t) : OnePermit t := by
  simp only [step,Option.ite_none_right_eq_some,Option.some.injEq] at h
  obtain ⟨⟨hfetch,htoken⟩,rfl⟩ := h
  have hpermit := hs.permit
  have hcalls : s.calls = 0 := by rw [hs.calls,hfetch]; rfl
  refine ⟨?_,by simp [hcalls,inCall]⟩
  simp only [pending] at hpermit ⊢
  omega

/-- Inside the call the permit does not change hands. -/
theorem OnePermit.inside (hs : OnePermit s) {fetch : Fetch} (hfrom : inCall s.fetch = true)
    (hto : inCall fetch = true) : OnePermit { s with fetch := fetch } where
  permit := hs.permit
  calls := by rw [hto,← hfrom]; exact hs.calls

theorem OnePermit.getRecords (hs : OnePermit s) {result : Option (List Bytes)}
    (h : step s (.getRecords result) = some t) : OnePermit t := by
  simp only [step] at h
  split at h
  · rename_i hfetch
    cases h
    exact hs.inside (by rw [hfetch]; rfl) rfl
  · rename_i hfetch
    cases h
    exact hs.inside (by rw [hfetch]; rfl) rfl
  · cases h

theorem OnePermit.updateMany (hs : OnePermit s) {ok : Bool} (h : step s (.updateMany ok) = some t) :
    OnePermit t := by
  simp only [step] at h
  split at h
  · rename_i hfetch
    cases h
    exact hs.inside (by rw [hfetch]; rfl) (by cases ok <;> rfl)
  · cases h

theorem OnePermit.scrape (hs : OnePermit s) {ok : Bool} (h : step s (.scrape ok) = some t) : OnePermit t := by
  simp only [step] at h
  split at h
  · rename_i hfetch
    cases h
    exact hs.inside (by rw [hfetch]; rfl) rfl
  · cases h

theorem OnePermit.calls_eq_one (hs : OnePermit s) (h : inCall s.fetch = true) : s.calls = 1 := by
  rw [hs.calls,h]
  rfl

/-- The deferred function hands the permit on, at once or through a timer. -/
theorem OnePermit.deferred (hs : OnePermit s) (h : step s .deferred = some t) : OnePermit t := by
  have hpermit := hs.permit
  simp only [step] at h
  split at h
  · rename_i hfetch
    cases h
    have hcalls := hs.calls_eq_one (by rw [hfetch]; rfl)
    refine ⟨?_,by simp [endCall,hcalls,inCall]⟩
    simp only [endCall,pending] at hpermit ⊢
    omega
  · rename_i hfetch
    obtain ⟨u,hu,rfl⟩ := Option.map_eq_some_iff.mp h
    obtain ⟨-,rfl⟩ := send_eq_some.mp hu
    have hcalls := hs.calls_eq_one (by rw [hfetch]; rfl)
    refine ⟨?_,by simp [endCall,hcalls,inCall]⟩
    simp only [endCall,pending] at hpermit ⊢
    omega
  · cases h

theorem OnePermit.start (hs : OnePermit s) (h : step s .start = some t) : OnePermit t := by
  have hpermit := hs.permit
  simp only [step,Option.ite_none_right_eq_some] at h
  obtain ⟨hstarting,h⟩ := h
  obtain ⟨u,hu,rfl⟩ := Option.map_eq_some_iff.mp h
  obtain ⟨hempty,rfl⟩ := send_eq_some.mp hu
  rw [hstarting,hempty] at hpermit
  refine ⟨?_,hs.calls⟩
  simp only [pending,Bool.toNat_true,Bool.toNat_false] at hpermit ⊢
  omega

/-- A timer keeps the permit when it fires and gives it up when it sends. -/
theorem OnePermit.timer (hs : OnePermit s) {e : Event} (he : e = .fire ∨ e = .timerSend)
    (h : step s e = some t) : OnePermit t := by
  have hpermit := hs.permit
  rcases he with rfl | rfl
  · simp only [step,Option.ite_none_right_eq_some,Option.some.injEq] at h
    obtain ⟨htimer,rfl⟩ := h
    refine ⟨?_,hs.calls⟩
    simp only [pending] at hpermit ⊢
    omega
  · simp only [step,Option.ite_none_right_eq_some] at h
    obtain ⟨hfired,h⟩ := h
    obtain ⟨u,hu,rfl⟩ := Option.map_eq_some_iff.mp h
    obtain ⟨hempty,rfl⟩ := send_eq_some.mp hu
    refine ⟨?_,hs.calls⟩
    simp only [pending] at hpermit ⊢
    omega

theorem OnePermit.done (hs : OnePermit s) (h : step s .done = some t) : OnePermit t := by
  simp only [step,Option.ite_none_right_eq_some,Option.some.injEq] at h
  obtain ⟨⟨hfetch,-⟩,rfl⟩ := h
  refine ⟨hs.permit,?_⟩
  have hcalls := hs.calls
  rw [hfetch] at hcalls
  exact hcalls

theorem OnePermit.step (hs : OnePermit s) {e : Event} (h : step s e = some t) : OnePermit t := by
  cases e with
  | start => exact hs.start h
  | receive => exact hs.receive h
  | getRecords => exact hs.getRecords h
  | updateMany => exact hs.updateMany h
  | scrape => exact hs.scrape h
  | deferred => exact hs.deferred h
  | fire => exact hs.timer (.inl rfl) h
  | timerSend => exact hs.timer (.inr rfl) h
  | stop =>
    cases h
    exact ⟨hs.permit,hs.calls⟩
  | done => exact hs.done h

/-- Whoever is about to send has the permit, so the channel is empty. -/
theorem OnePermit.needUpdate_empty (hs : OnePermit s) {e : Event} (he : Sends s e) : s.needUpdate = 0 := by
  have hpermit := hs.permit
  simp only [pending] at hpermit
  cases e with
  | start =>
    rw [show s.starting = true from he] at hpermit
    simp only [Bool.toNat_true] at hpermit
    omega
  | deferred =>
    obtain ⟨r,records,hfetch⟩ := he
    have hcalls := hs.calls_eq_one (by rw [hfetch]; rfl)
    omega
  | timerSend =>
    have hfired : 0 < s.fired := he
    omega
  | _ => exact he.elim

theorem OnePermit.not_blocked (hs : OnePermit s) {e : Event} (he : Sends s e) :
    ∃ t, Refresh.step s e = some t := by
  have hsend : send s = some { s with needUpdate := 1 } := send_eq_some.mpr ⟨hs.needUpdate_empty he,rfl⟩
  cases e with
  | start =>
    have hstarting : s.starting = true := he
    exact ⟨_,by simp only [Refresh.step,hstarting,if_true,hsend,Option.map_some]; rfl⟩
  | deferred =>
    obtain ⟨r,records,hfetch⟩ := he
    exact ⟨_,by simp only [Refresh.step,hfetch,hsend,Option.map_some]; rfl⟩
  | timerSend =>
    have hfired : 0 < s.fired := he
    exact ⟨_,by simp only [Refresh.step,hfired,if_true,hsend,Option.map_some]; rfl⟩
  | _ => exact he.elim

theorem OnePermit.exactlyOne (hs : OnePermit s) (hstarted : s.starting = false) : ExactlyOne s := by
  have hpermit := hs.permit
  rw [hstarted] at hpermit
  simp only [Bool.toNat_false] at hpermit
  unfold ExactlyOne
  omega

end Step

/-- What the loop keeps to, whatever its calls return and whenever its timers fire. -/
structure WellBehaved (s : System) : Prop where
  exactlyOne : s.starting = false → ExactlyOne s
  never_blocked : ∀ e, Sends s e → ∃ t, step s e = some t
  once : s.calls ≤ 1
  running : s.calls = 1 ↔ inCall s.fetch = true

theorem onePermit_initial : OnePermit initial := ⟨rfl,rfl⟩

/-- There is one permit in every state that the loop reaches, so that no send blocks and no two calls of
`refreshTracker` overlap. -/
theorem refresh_holds_one_permit {s : System} (hs : Reach step (Free System Event) initial s) :
    WellBehaved s := by
  have hpermit : OnePermit s := hs.invariant onePermit_initial (fun h _ he => h.step he)
  have hcalls := hpermit.calls
  refine ⟨hpermit.exactlyOne,fun e he => hpermit.not_blocked he,?_,?_⟩
  · have hle := Bool.toNat_le (inCall s.fetch)
    omega
  · rw [hcalls]
    cases inCall s.fetch <;> simp

/-- A round with a record, one without, and the timer behind it. -/
theorem two_rounds_one_permit :
    ∃ s, Reach step (Free System Event) initial s ∧ s.needUpdate = 1 ∧ WellBehaved s := by
  have hreach := @Reach.of_run System Event step initial _
    [.start,.receive,.getRecords (some [[1]]),.updateMany true,.scrape false,.deferred,
      .receive,.getRecords none,.deferred,.fire,.timerSend] rfl
  exact ⟨_,hreach,rfl,refresh_holds_one_permit hreach⟩

end DhtOcean.Tracker.Refresh
