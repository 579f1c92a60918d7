import Mathlib.Algebra.BigOperators.Group.Finset.Basic
import Mathlib.Algebra.Order.BigOperators.Group.Finset
import Mathlib.Data.Fintype.BigOperators
import Mathlib.Data.Set.Finite.Lattice
import Mathlib.Logic.Relation

/-! # Loops that communicate over bounded channels

A network is a family of loops. Each takes the messages of one channel and runs a
body for every message; a body sends on channels, looks at their lengths and asks
for what lies outside of the network. Sending on a full channel blocks, and a
question may never be answered. Three rules are derived for every interleaving:
channels that are ordered so that a body sends only upwards cannot deadlock, a price
on messages bounds the steps that are left, and what the bodies emit balances what
the loops have taken.
-/
namespace DhtOcean.Foundation
open Function

section Programs
variable {Ch Q : Type} {Msg : Ch → Type} {Reply : Q → Type}

/-- What is left to do of one pass through a body. The loop is waiting at `done`, and has
returned at `exit`. -/
inductive Prog {Ch Q : Type} (Msg : Ch → Type) (Reply : Q → Type)
  | done
  | send (c : Ch) (m : Msg c) (next : Prog Msg Reply)
  | peek (c : Ch) (next : ℕ → Prog Msg Reply)
  | ask (q : Q) (next : Reply q → Prog Msg Reply)
  | crash
  | exit

namespace Prog

/-- Whatever the lengths and the replies are, the program comes to its end and sends nothing
but messages with the property. -/
def Keeps (ok : (c : Ch) → Msg c → Prop) : Prog Msg Reply → Prop
  | done => True
  | send c m next => ok c m ∧ next.Keeps ok
  | peek _ next => ∀ n, (next n).Keeps ok
  | ask _ next => ∀ a, (next a).Keeps ok
  | crash => False
  | exit => False

/-- Every message that the program may send has the property. -/
def Sends (ok : (c : Ch) → Msg c → Prop) : Prog Msg Reply → Prop
  | done => True
  | send c m next => ok c m ∧ next.Sends ok
  | peek _ next => ∀ n, (next n).Sends ok
  | ask _ next => ∀ a, (next a).Sends ok
  | crash => True
  | exit => True

/-- The program takes at most `n` steps with all that its messages will cost; one is left for the
loop to return. -/
def Within (price : (c : Ch) → Msg c → ℕ) : Prog Msg Reply → ℕ → Prop
  | done, n => 1 ≤ n
  | send c m next, n => ∃ k, next.Within price k ∧ k + price c m + 1 ≤ n
  | peek _ next, n => ∃ k, (∀ l, (next l).Within price k) ∧ k + 1 ≤ n
  | ask _ next, n => ∃ k, (∀ a, (next a).Within price k) ∧ k + 1 ≤ n
  | crash, _ => True
  | exit, _ => True

/-- Whatever the lengths and the replies are, the values of the messages add up to `x`, as far as
`r` tells sums apart. -/
def Emits {M : Type} [AddCommMonoid M] (r : M → M → Prop) (value : (c : Ch) → Msg c → M) :
    Prog Msg Reply → M → Prop
  | done, x => r 0 x
  | send c m next, x => ∃ y, next.Emits r value y ∧ r (value c m + y) x
  | peek _ next, x => ∀ n, (next n).Emits r value x
  | ask _ next, x => ∀ a, (next a).Emits r value x
  | crash, x => r 0 x
  | exit, x => r 0 x

theorem Keeps.sends {ok : (c : Ch) → Msg c → Prop} {prog : Prog Msg Reply} (h : prog.Keeps ok) : prog.Sends ok := by
  induction prog with
  | done => trivial
  | send c m next ih => exact ⟨h.1,ih h.2⟩
  | peek c next ih => exact fun n => ih n (h n)
  | ask q next ih => exact fun a => ih a (h a)
  | crash => trivial
  | exit => trivial

theorem Within.mono {price : (c : Ch) → Msg c → ℕ} {prog : Prog Msg Reply} {n n' : ℕ} (h : prog.Within price n)
    (hn : n ≤ n') : prog.Within price n' := by
  cases prog with
  | done => exact le_trans h hn
  | send c m next =>
    obtain ⟨k,hk,hle⟩ := h
    exact ⟨k,hk,hle.trans hn⟩
  | peek c next =>
    obtain ⟨k,hk,hle⟩ := h
    exact ⟨k,hk,hle.trans hn⟩
  | ask q next =>
    obtain ⟨k,hk,hle⟩ := h
    exact ⟨k,hk,hle.trans hn⟩
  | crash => trivial
  | exit => trivial

end Prog

/-- What a program meets when nothing runs beside it; a question without an answer blocks it. -/
structure Host (S : Type) {Ch Q : Type} (Msg : Ch → Type) (Reply : Q → Type) where
  send : (c : Ch) → Msg c → S → S
  length : Ch → S → ℕ
  answer : (q : Q) → S → Option (Reply q × S)

/-- The state behind a program that comes to its end. -/
def Prog.exec {S : Type} (host : Host S Msg Reply) : Prog Msg Reply → S → Option S
  | .done, s => some s
  | .send c m next, s => next.exec host (host.send c m s)
  | .peek c next, s => (next (host.length c s)).exec host s
  | .ask q next, s =>
    match host.answer q s with
    | none => none
    | some (a,s') => (next a).exec host s'
  | .crash, _ => none
  | .exit, _ => none

/-- Loops over channels; `source` tells the channels that are fed from outside. -/
structure Network (P : Type) {Ch Q : Type} (Msg : Ch → Type) (Reply : Q → Type) where
  cap : Ch → ℕ
  home : P → Ch
  body : (c : Ch) → Msg c → Prog Msg Reply
  source : Ch → Bool

/-- The queues and the loops, with all messages that were taken off each channel. A loop is lost
once its question will not be answered: what it has called blocks for ever, or has failed. -/
structure NetState (P : Type) {Ch Q : Type} (Msg : Ch → Type) (Reply : Q → Type) where
  taken : (c : Ch) → List (Msg c)
  queue : (c : Ch) → List (Msg c)
  proc : P → Prog Msg Reply
  stopped : P → Bool
  lost : P → Bool

end Programs

variable {P Ch Q : Type} [DecidableEq P] [DecidableEq Ch] {Msg : Ch → Type} {Reply : Q → Type}

namespace NetState

/-- All loops wait, and nothing has been sent. -/
def start : NetState P Msg Reply := ⟨fun _ => [],fun _ => [],fun _ => .done,fun _ => false,fun _ => false⟩

/-- All messages that were sent on a channel. -/
def put (s : NetState P Msg Reply) (c : Ch) : List (Msg c) := s.taken c ++ s.queue c

def resume (s : NetState P Msg Reply) (p : P) (prog : Prog Msg Reply) : NetState P Msg Reply :=
  { s with proc := update s.proc p prog }

def push (s : NetState P Msg Reply) (c : Ch) (m : Msg c) : NetState P Msg Reply :=
  { s with queue := update s.queue c (s.queue c ++ [m]) }

def take (s : NetState P Msg Reply) (c : Ch) (m : Msg c) (rest : List (Msg c)) : NetState P Msg Reply :=
  { s with taken := update s.taken c (s.taken c ++ [m]), queue := update s.queue c rest }

omit [DecidableEq P] in
theorem put_push (s : NetState P Msg Reply) (c : Ch) (m : Msg c) :
    (s.push c m).put = update s.put c (s.put c ++ [m]) := by
  funext d
  by_cases hd : d = c
  · subst hd
    simp only [put,push,update_self,List.append_assoc]
  · simp only [put,push,update_of_ne hd]

omit [DecidableEq P] in
theorem put_take {s : NetState P Msg Reply} {c : Ch} {m : Msg c} {rest : List (Msg c)} (h : s.queue c = m :: rest) :
    (s.take c m rest).put = s.put := by
  funext d
  by_cases hd : d = c
  · subst hd
    simp only [put,take,update_self,h,List.append_assoc,List.singleton_append]
  · simp only [put,take,update_of_ne hd]

/-- Every loop waits for a message, and there is none. -/
structure Idle (s : NetState P Msg Reply) : Prop where
  waiting : ∀ p, s.proc p = .done
  empty : ∀ c, s.queue c = []

/-- The loop has asked what will not be answered. -/
def Hangs (s : NetState P Msg Reply) (p : P) : Prop := (∃ q next, s.proc p = .ask q next) ∧ s.lost p = true

end NetState

namespace Network
variable (net : Network P Msg Reply)

def sent (s : NetState P Msg Reply) (p : P) (c : Ch) (m : Msg c) (next : Prog Msg Reply) : NetState P Msg Reply :=
  (s.push c m).resume p next

def received (s : NetState P Msg Reply) (p : P) (m : Msg (net.home p)) (rest : List (Msg (net.home p))) :
    NetState P Msg Reply :=
  (s.take (net.home p) m rest).resume p (net.body (net.home p) m)

/-- A step of one loop, or of two of them when a message is handed over without being queued. -/
inductive Step : NetState P Msg Reply → NetState P Msg Reply → Prop
  | recv {s : NetState P Msg Reply} {p : P} {m : Msg (net.home p)} {rest : List (Msg (net.home p))} :
      s.proc p = .done → s.queue (net.home p) = m :: rest → Step s (net.received s p m rest)
  | send {s : NetState P Msg Reply} {p : P} {c : Ch} {m : Msg c} {next : Prog Msg Reply} :
      s.proc p = .send c m next → (s.queue c).length < net.cap c → Step s (sent s p c m next)
  | hand {s : NetState P Msg Reply} {p q : P} {m : Msg (net.home q)} {next : Prog Msg Reply} :
      s.proc p = .send (net.home q) m next → s.proc q = .done → s.queue (net.home q) = [] →
      Step s (net.received (sent s p (net.home q) m next) q m [])
  | look {s : NetState P Msg Reply} {p : P} {c : Ch} {next : ℕ → Prog Msg Reply} :
      s.proc p = .peek c next → Step s (s.resume p (next (s.queue c).length))
  | reply {s : NetState P Msg Reply} {p : P} {q : Q} {next : Reply q → Prog Msg Reply} (a : Reply q) :
      s.proc p = .ask q next → s.lost p = false → Step s (s.resume p (next a))
  | quit {s : NetState P Msg Reply} {p : P} :
      s.proc p = .done → s.stopped p = true → Step s (s.resume p .exit)

/-- What happens from outside: a message arrives, a loop is told to return, or a question is lost. -/
inductive Outside (ok : (c : Ch) → Msg c → Prop) : NetState P Msg Reply → NetState P Msg Reply → Prop
  | arrive {s : NetState P Msg Reply} {c : Ch} {m : Msg c} :
      net.source c = true → (s.queue c).length < net.cap c → ok c m → Outside ok s (s.push c m)
  | stop {s : NetState P Msg Reply} (p : P) : Outside ok s { s with stopped := update s.stopped p true }
  | lose {s : NetState P Msg Reply} {p : P} {q : Q} {next : Reply q → Prog Msg Reply} :
      s.proc p = .ask q next → Outside ok s { s with lost := update s.lost p true }

/-- The states that some interleaving reaches while every message that arrives has the property. -/
def Reaches (ok : (c : Ch) → Msg c → Prop) : NetState P Msg Reply → NetState P Msg Reply → Prop :=
  Relation.ReflTransGen fun s t => net.Step s t ∨ net.Outside ok s t

variable {net} {ok : (c : Ch) → Msg c → Prop} {s t : NetState P Msg Reply}

/-- What holds at the start and is kept by both kinds of steps holds throughout. -/
theorem Reaches.invariant {I : NetState P Msg Reply → Prop} (h : net.Reaches ok s t) (hs : I s)
    (hstep : ∀ {s t}, I s → net.Step s t → I t) (hout : ∀ {s t}, I s → net.Outside ok s t → I t) : I t := by
  induction h with
  | refl => exact hs
  | tail _ h ih =>
    rcases h with h | h
    · exact hstep ih h
    · exact hout ih h

theorem Reaches.mono {ok' : (c : Ch) → Msg c → Prop} (hok : ∀ c m, ok c m → ok' c m) (h : net.Reaches ok s t) :
    net.Reaches ok' s t := by
  refine Relation.ReflTransGen.mono (fun s t hst => ?_) _ _ h
  rcases hst with hst | hst
  · exact .inl hst
  · cases hst with
    | arrive hc hcap hm => exact .inr (.arrive hc hcap (hok _ _ hm))
    | stop p => exact .inr (.stop p)
    | lose hp => exact .inr (.lose hp)

/-- A message that is handed over could have been queued and taken in two steps. -/
theorem proc_queue_sent {p q : P} {m : Msg (net.home q)} {next : Prog Msg Reply}
    (hp : s.proc p = .send (net.home q) m next) (hq : s.proc q = .done) (hempty : s.queue (net.home q) = []) :
    (sent s p (net.home q) m next).proc q = .done ∧ (sent s p (net.home q) m next).queue (net.home q) = [m] := by
  have hne : q ≠ p := by
    rintro rfl
    rw [hp] at hq
    cases hq
  refine ⟨?_,?_⟩
  · exact (update_of_ne hne _ _).trans hq
  · exact (update_self _ _ _).trans (by rw [hempty,List.nil_append])

theorem Step.stopped (h : net.Step s t) : t.stopped = s.stopped := by
  cases h <;> rfl

theorem Step.lost (h : net.Step s t) : t.lost = s.lost := by
  cases h <;> rfl

section Progress

/-- Channels are ordered, and a body sends upwards only: proper messages in response to proper
ones. -/
def Layered (net : Network P Msg Reply) (ok : (c : Ch) → Msg c → Prop) (rank : Ch → ℕ) : Prop :=
  ∀ c m, ok c m → (net.body c m).Keeps fun d n => ok d n ∧ rank c < rank d

structure Sane (net : Network P Msg Reply) (ok : (c : Ch) → Msg c → Prop) (rank : Ch → ℕ)
    (s : NetState P Msg Reply) : Prop where
  queued : ∀ c, ∀ m ∈ s.queue c, ok c m
  taken : ∀ c, ∀ m ∈ s.taken c, ok c m
  busy : ∀ p, (s.proc p).Keeps (fun d n => ok d n ∧ rank (net.home p) < rank d) ∨
    s.proc p = .exit ∧ s.stopped p = true

variable {rank : Ch → ℕ}

omit [DecidableEq P] [DecidableEq Ch] in
theorem sane_start (net : Network P Msg Reply) (ok : (c : Ch) → Msg c → Prop) (rank : Ch → ℕ) :
    Sane net ok rank .start := by
  refine ⟨?_,?_,fun p => .inl trivial⟩ <;> intro c m hm <;> cases hm

omit [DecidableEq P] in
theorem Sane.push (h : Sane net ok rank s) {c : Ch} {m : Msg c} (hm : ok c m) : Sane net ok rank (s.push c m) := by
  refine ⟨?_,h.taken,h.busy⟩
  intro d n hn
  by_cases hd : d = c
  · subst hd
    simp only [NetState.push,update_self,List.mem_append,List.mem_singleton] at hn
    rcases hn with hn | rfl
    · exact h.queued d n hn
    · exact hm
  · simp only [NetState.push,update_of_ne hd] at hn
    exact h.queued d n hn

omit [DecidableEq Ch] in
theorem Sane.resume (h : Sane net ok rank s) {p : P} {prog : Prog Msg Reply}
    (hp : prog.Keeps (fun d n => ok d n ∧ rank (net.home p) < rank d) ∨ prog = .exit ∧ s.stopped p = true) :
    Sane net ok rank (s.resume p prog) := by
  refine ⟨h.queued,h.taken,?_⟩
  intro q
  by_cases hq : q = p
  · subst hq
    simpa only [NetState.resume,update_self] using hp
  · simpa only [NetState.resume,update_of_ne hq] using h.busy q

omit [DecidableEq P] [DecidableEq Ch] in
/-- A loop that has not returned runs a program that keeps to the order. -/
theorem Sane.keeps (h : Sane net ok rank s) {p : P} {prog : Prog Msg Reply} (hp : s.proc p = prog)
    (hne : prog ≠ .exit) : prog.Keeps fun d n => ok d n ∧ rank (net.home p) < rank d := by
  subst hp
  rcases h.busy p with hk | ⟨he,-⟩
  · exact hk
  · exact absurd he hne

theorem Sane.sent (h : Sane net ok rank s) {p : P} {c : Ch} {m : Msg c} {next : Prog Msg Reply}
    (hp : s.proc p = .send c m next) : Sane net ok rank (sent s p c m next) := by
  have hk := h.keeps hp (by simp)
  exact (h.push hk.1.1).resume (.inl hk.2)

theorem Sane.received (hnet : net.Layered ok rank) (h : Sane net ok rank s) {p : P} {m : Msg (net.home p)}
    {rest : List (Msg (net.home p))} (hq : s.queue (net.home p) = m :: rest) :
    Sane net ok rank (net.received s p m rest) := by
  have hall : ∀ n ∈ m :: rest, ok _ n := hq ▸ h.queued (net.home p)
  have htake : Sane net ok rank (s.take (net.home p) m rest) := by
    refine ⟨fun d n hn => ?_,fun d n hn => ?_,h.busy⟩
    · by_cases hd : d = net.home p
      · subst hd
        simp only [NetState.take,update_self] at hn
        exact hall n (List.mem_cons_of_mem m hn)
      · simp only [NetState.take,update_of_ne hd] at hn
        exact h.queued d n hn
    · by_cases hd : d = net.home p
      · subst hd
        simp only [NetState.take,update_self,List.mem_append,List.mem_singleton] at hn
        rcases hn with hn | rfl
        · exact h.taken _ n hn
        · exact hall n List.mem_cons_self
      · simp only [NetState.take,update_of_ne hd] at hn
        exact h.taken d n hn
  exact htake.resume (.inl (hnet _ m (hall m List.mem_cons_self)))

theorem Sane.step (hnet : net.Layered ok rank) (h : Sane net ok rank s) (hst : net.Step s t) :
    Sane net ok rank t := by
  cases hst with
  | recv _ hq => exact h.received hnet hq
  | send hp _ => exact h.sent hp
  | hand hp hq hempty => exact (h.sent hp).received hnet (proc_queue_sent hp hq hempty).2
  | look hp => exact h.resume (.inl (h.keeps hp (by simp) _))
  | reply a hp _ => exact h.resume (.inl (h.keeps hp (by simp) a))
  | quit _ hstop => exact h.resume (.inr ⟨rfl,hstop⟩)

theorem Sane.outside (h : Sane net ok rank s) (hout : net.Outside ok s t) : Sane net ok rank t := by
  cases hout with
  | arrive _ _ hm => exact h.push hm
  | stop p =>
    refine ⟨h.queued,h.taken,?_⟩
    intro q
    rcases h.busy q with hk | ⟨he,hq⟩
    · exact .inl hk
    · refine .inr ⟨he,?_⟩
      by_cases hqp : q = p
      · subst hqp
        exact update_self _ _ _
      · exact (update_of_ne hqp _ _).trans hq
  | lose _ => exact ⟨h.queued,h.taken,h.busy⟩

theorem Sane.reaches (hnet : net.Layered ok rank) (h : Sane net ok rank s) (hr : net.Reaches ok s t) :
    Sane net ok rank t :=
  hr.invariant h (fun hi hst => hi.step hnet hst) (fun hi hout => hi.outside hout)

omit [DecidableEq P] [DecidableEq Ch] in
/-- No loop fails in a state that is reached by proper messages. -/
theorem Sane.ne_crash (h : Sane net ok rank s) (p : P) : s.proc p ≠ .crash :=
  fun hp => h.keeps hp (by simp)

/-- A loop sends on a channel none of whose loops is left. -/
def Abandoned (net : Network P Msg Reply) (s : NetState P Msg Reply) (c : Ch) : Prop :=
  (∃ p m next, s.proc p = .send c m next) ∧ ∀ q, net.home q = c → s.proc q = .exit

section Stuck
variable [∀ q, Nonempty (Reply q)]

/-- A loop without a step hangs, waits at an empty channel, has returned or is sending. -/
theorem Sane.stuck_cases (h : Sane net ok rank s) (hstuck : ∀ t, ¬ net.Step s t) (p : P) : s.Hangs p ∨
    (s.proc p = .done ∧ s.stopped p = false ∧ s.queue (net.home p) = []) ∨ s.proc p = .exit ∨
    ∃ c m next, s.proc p = .send c m next ∧ rank (net.home p) < rank c := by
  cases hp : s.proc p with
  | done =>
    refine .inr (.inl ⟨rfl,?_,?_⟩)
    · cases hstop : s.stopped p with
      | false => rfl
      | true => exact absurd (Step.quit hp hstop) (hstuck _)
    · cases hq : s.queue (net.home p) with
      | nil => rfl
      | cons m rest => exact absurd (Step.recv hp hq) (hstuck _)
  | send c m next => exact .inr (.inr (.inr ⟨c,m,next,rfl,(h.keeps hp (by simp)).1.2⟩))
  | peek c next => exact absurd (Step.look hp) (hstuck _)
  | ask q next =>
    obtain ⟨a⟩ := ‹∀ q, Nonempty (Reply q)› q
    cases hlost : s.lost p with
    | false => exact absurd (Step.reply a hp hlost) (hstuck _)
    | true => exact .inl ⟨⟨q,next,hp⟩,hlost⟩
  | crash => exact absurd hp (h.ne_crash p)
  | exit => exact .inr (.inr (.inl rfl))

/-- The loops of a channel on which a stuck loop sends are sending themselves, hang or have returned:
going up from channel to channel ends at one that is abandoned, or at a loop that hangs. -/
theorem Sane.abandoned_of_sending (h : Sane net ok rank s) (hstuck : ∀ t, ¬ net.Step s t) {B : ℕ}
    (hB : ∀ c, rank c ≤ B) {p : P} {c : Ch} {m : Msg c} {next : Prog Msg Reply} (hp : s.proc p = .send c m next) :
    (∃ d, net.Abandoned s d) ∨ ∃ q, s.Hangs q := by
  induction hk : B - rank c using Nat.strong_induction_on generalizing p c m next with
  | _ k ih =>
    by_cases hexit : ∀ q, net.home q = c → s.proc q = .exit
    · exact .inl ⟨c,⟨p,m,next,hp⟩,hexit⟩
    push Not at hexit
    obtain ⟨q,rfl,hq⟩ := hexit
    rcases h.stuck_cases hstuck q with hh | ⟨hw,-,hempty⟩ | he | ⟨d,n,rest,hq,hlt⟩
    · exact .inr ⟨q,hh⟩
    · exact absurd (Step.hand hp hw hempty) (hstuck _)
    · exact absurd he hq
    · have hd := hB d
      exact ih (B - rank d) (by omega) hq rfl

/-- Where no step is left, every loop waits at an empty channel or has returned, or else a channel
is abandoned or a loop hangs. -/
theorem Sane.settled_or_abandoned [Finite Ch] (h : Sane net ok rank s) (hstuck : ∀ t, ¬ net.Step s t) :
    (∀ p, (s.proc p = .done ∧ s.stopped p = false ∧ s.queue (net.home p) = []) ∨ s.proc p = .exit) ∨
    (∃ c, net.Abandoned s c) ∨ ∃ p, s.Hangs p := by
  obtain ⟨B,hB⟩ := (Set.finite_range rank).bddAbove
  by_cases hsend : ∃ p c m next, s.proc p = .send c m next
  · obtain ⟨p,c,m,next,hp⟩ := hsend
    exact .inr (h.abandoned_of_sending hstuck (fun c => hB ⟨c,rfl⟩) hp)
  by_cases hhang : ∃ p, s.Hangs p
  · exact .inr (.inr hhang)
  · refine .inl fun p => ?_
    rcases h.stuck_cases hstuck p with hh | hw | he | ⟨c,m,next,hp,-⟩
    · exact absurd ⟨p,hh⟩ hhang
    · exact .inl hw
    · exact .inr he
    · exact absurd ⟨p,c,m,next,hp⟩ hsend

/-- No deadlock: while no loop is told to return, a state without a step is idle, or a loop hangs. -/
theorem Sane.idle_of_stuck [Finite Ch] (h : Sane net ok rank s) (hrun : ∀ p, s.stopped p = false)
    (hserved : ∀ c, ∃ p, net.home p = c) (hstuck : ∀ t, ¬ net.Step s t) : s.Idle ∨ ∃ p, s.Hangs p := by
  have hexit : ∀ p, s.proc p ≠ .exit := by
    intro p hp
    rcases h.busy p with hk | ⟨-,hstop⟩
    · rw [hp] at hk
      exact hk
    · rw [hrun p] at hstop
      cases hstop
  rcases h.settled_or_abandoned hstuck with hall | ⟨c,-,hc⟩ | hhang
  · have hwait : ∀ p, s.proc p = .done ∧ s.queue (net.home p) = [] := by
      intro p
      rcases hall p with ⟨hw,-,hq⟩ | he
      · exact ⟨hw,hq⟩
      · exact absurd he (hexit p)
    refine .inl ⟨fun p => (hwait p).1,?_⟩
    intro c
    obtain ⟨p,rfl⟩ := hserved c
    exact (hwait p).2
  · obtain ⟨p,hp⟩ := hserved c
    exact absurd (hc p hp) (hexit p)
  · exact .inr hhang

/-- A run that cannot go on has dealt with all messages, while every question is answered. -/
theorem Sane.idle_of_run [Finite Ch] (hnet : net.Layered ok rank) (h : Sane net ok rank s)
    (hrun : ∀ p, s.stopped p = false) (hcalls : ∀ p, s.lost p = false) (hserved : ∀ c, ∃ p, net.home p = c)
    (hsteps : Relation.ReflTransGen net.Step s t) (hstuck : ∀ u, ¬ net.Step t u) : t.Idle := by
  induction hsteps using Relation.ReflTransGen.head_induction_on with
  | refl =>
    rcases h.idle_of_stuck hrun hserved hstuck with hidle | ⟨p,-,hlost⟩
    · exact hidle
    · cases (hcalls p).symm.trans hlost
  | head hst _ ih => exact ih (h.step hnet hst) (by rwa [hst.stopped]) (by rwa [hst.lost])

end Stuck

end Progress

section Totals
variable {M : Type} [AddCommMonoid M]

omit [DecidableEq P] in
theorem sum_update [DecidableEq P] [Fintype P] (f : P → M) (p : P) (x : M) :
    ∑ q, update f p x q = x + ∑ q ∈ Finset.univ.erase p, f q := by
  rw [Finset.sum_update_of_mem (Finset.mem_univ p),Finset.sdiff_singleton_eq_erase]

/-- The values of the messages on all channels. -/
def total [Fintype Ch] (value : (c : Ch) → Msg c → M) (msgs : (c : Ch) → List (Msg c)) : M :=
  ∑ c, ((msgs c).map (value c)).sum

variable [Fintype Ch]

theorem total_update (value : (c : Ch) → Msg c → M) (msgs : (c : Ch) → List (Msg c)) (c : Ch) (l : List (Msg c)) :
    total value (update msgs c l) =
      (l.map (value c)).sum + ∑ d ∈ Finset.univ.erase c, ((msgs d).map (value d)).sum := by
  rw [← sum_update (fun d => ((msgs d).map (value d)).sum),total]
  refine Finset.sum_congr rfl fun d _ => ?_
  exact apply_update (fun d (l : List (Msg d)) => (l.map (value d)).sum) msgs c l d

theorem total_eq (value : (c : Ch) → Msg c → M) (msgs : (c : Ch) → List (Msg c)) (c : Ch) :
    total value msgs = ((msgs c).map (value c)).sum + ∑ d ∈ Finset.univ.erase c, ((msgs d).map (value d)).sum := by
  rw [← total_update value msgs c (msgs c),update_eq_self]

/-- A message at the end of a channel adds its value. -/
theorem total_append (value : (c : Ch) → Msg c → M) (msgs : (c : Ch) → List (Msg c)) (c : Ch) (m : Msg c) :
    total value (update msgs c (msgs c ++ [m])) = total value msgs + value c m := by
  rw [total_update,total_eq value msgs c,List.map_append,List.sum_append,List.map_singleton,List.sum_singleton]
  exact add_right_comm _ _ _

end Totals

section Cost
variable {price : (c : Ch) → Msg c → ℕ}

omit [DecidableEq Ch] in
theorem within_resume {budget : P → ℕ} (h : ∀ q, (s.proc q).Within price (budget q)) {p : P}
    {prog : Prog Msg Reply} {k : ℕ} (hk : prog.Within price k) (q : P) :
    ((s.resume p prog).proc q).Within price (update budget p k q) := by
  by_cases hq : q = p
  · subst hq
    simpa only [NetState.resume,update_self] using hk
  · simpa only [NetState.resume,update_of_ne hq] using h q

variable [Fintype P] [Fintype Ch]

/-- Every loop has a budget for the program it runs, and `n` pays for all of them and for the
messages that are queued. -/
def Affords (price : (c : Ch) → Msg c → ℕ) (s : NetState P Msg Reply) (n : ℕ) : Prop :=
  ∃ budget : P → ℕ, (∀ p, (s.proc p).Within price (budget p)) ∧ total price s.queue + ∑ p, budget p ≤ n

omit [DecidableEq P] [DecidableEq Ch] in
theorem affords_start : Affords price (.start : NetState P Msg Reply) (Fintype.card P) := by
  refine ⟨fun _ => 1,fun p => le_rfl,?_⟩
  simp [total,NetState.start]

omit [DecidableEq P] [DecidableEq Ch] in
theorem Affords.mono {n n' : ℕ} (h : Affords price s n) (hn : n ≤ n') : Affords price s n' := by
  obtain ⟨budget,hb,hle⟩ := h
  exact ⟨budget,hb,hle.trans hn⟩

omit [DecidableEq Ch] in
/-- A loop goes on with a program that, together with what was queued for it, costs less. -/
theorem Affords.resume {n : ℕ} (h : Affords price s n) (s' : NetState P Msg Reply) (hproc : s'.proc = s.proc)
    {p : P} {prog : Prog Msg Reply} (hk : ∀ l, (s.proc p).Within price l →
      ∃ k, prog.Within price k ∧ total price s'.queue + k + 1 ≤ total price s.queue + l) :
    ∃ j < n, Affords price (s'.resume p prog) j := by
  obtain ⟨budget,hb,hn⟩ := h
  obtain ⟨k,hprog,hle⟩ := hk _ (hb p)
  refine ⟨total price s'.queue + ∑ q, update budget p k q,?_,update budget p k,?_,le_rfl⟩
  · rw [← Finset.add_sum_erase Finset.univ budget (Finset.mem_univ p)] at hn
    rw [sum_update]
    omega
  · refine within_resume ?_ hprog
    rw [hproc]
    exact hb

theorem Affords.sent {n : ℕ} (h : Affords price s n) {p : P} {c : Ch} {m : Msg c} {next : Prog Msg Reply}
    (hp : s.proc p = .send c m next) : ∃ j < n, Affords price (sent s p c m next) j := by
  refine h.resume (s.push c m) rfl ?_
  intro l hl
  rw [hp] at hl
  obtain ⟨k,hk,hle⟩ := hl
  refine ⟨k,hk,?_⟩
  rw [NetState.push,total_append]
  omega

theorem Affords.received (hnet : ∀ c m, (net.body c m).Within price (price c m)) {n : ℕ} (h : Affords price s n)
    {p : P} {m : Msg (net.home p)} {rest : List (Msg (net.home p))} (hp : s.proc p = .done)
    (hq : s.queue (net.home p) = m :: rest) : ∃ j < n, Affords price (net.received s p m rest) j := by
  refine h.resume (s.take (net.home p) m rest) rfl ?_
  intro l hl
  rw [hp] at hl
  refine ⟨price _ m,hnet _ m,?_⟩
  rw [NetState.take,total_update,total_eq price s.queue (net.home p),hq,List.map_cons,List.sum_cons]
  have : 1 ≤ l := hl
  omega

/-- Every step is paid for. -/
theorem Affords.step (hnet : ∀ c m, (net.body c m).Within price (price c m)) {n : ℕ} (h : Affords price s n)
    (hst : net.Step s t) : ∃ j < n, Affords price t j := by
  cases hst with
  | recv hp hq => exact h.received hnet hp hq
  | send hp _ => exact h.sent hp
  | hand hp hq hempty =>
    obtain ⟨j,hj,hsent⟩ := h.sent hp
    obtain ⟨hdone,hqueue⟩ := proc_queue_sent hp hq hempty
    obtain ⟨i,hi,hrecv⟩ := hsent.received hnet hdone hqueue
    exact ⟨i,hi.trans hj,hrecv⟩
  | look hp =>
    refine h.resume s rfl fun l hl => ?_
    rw [hp] at hl
    obtain ⟨k,hk,hle⟩ := hl
    exact ⟨k,hk _,by omega⟩
  | reply a hp _ =>
    refine h.resume s rfl fun l hl => ?_
    rw [hp] at hl
    obtain ⟨k,hk,hle⟩ := hl
    exact ⟨k,hk a,by omega⟩
  | quit hp _ =>
    refine h.resume s rfl fun l hl => ?_
    rw [hp] at hl
    exact ⟨0,trivial,Nat.add_le_add_left hl _⟩

/-- Without anything from outside a run has no more steps than were paid for. -/
theorem Affords.length_le (hnet : ∀ c m, (net.body c m).Within price (price c m)) {n : ℕ}
    {trace : ℕ → NetState P Msg Reply} (h : Affords price (trace 0) n) {k : ℕ}
    (hst : ∀ i < k, net.Step (trace i) (trace (i+1))) : k ≤ n := by
  induction k generalizing trace n with
  | zero => exact Nat.zero_le n
  | succ k ih =>
    obtain ⟨j,hj,hnext⟩ := h.step hnet (hst 0 (Nat.succ_pos k))
    have hle := @ih j (fun i => trace (i+1)) hnext (fun i hi => hst (i+1) (Nat.succ_lt_succ hi))
    omega

/-- The price of what may come from outside. -/
def fed (net : Network P Msg Reply) (price : (c : Ch) → Msg c → ℕ) (c : Ch) (m : Msg c) : ℕ :=
  if net.source c then price c m else 0

omit [Fintype P] in
/-- Channels only get more messages. -/
theorem Step.total_put_le (value : (c : Ch) → Msg c → ℕ) (h : net.Step s t) : total value s.put ≤ total value t.put := by
  have hsent : ∀ {s : NetState P Msg Reply} {p c m next}, total value s.put ≤ total value (sent s p c m next).put := by
    intro s p c m next
    change _ ≤ total value (s.push c m).put
    rw [NetState.put_push,total_append]
    exact Nat.le_add_right _ _
  cases h with
  | recv _ hq => exact (congrArg (total value) (NetState.put_take hq)).ge
  | send _ _ => exact hsent
  | hand hp hq hempty =>
    exact hsent.trans (congrArg (total value) (NetState.put_take (proc_queue_sent hp hq hempty).2)).ge
  | look _ => exact le_rfl
  | reply _ _ _ => exact le_rfl
  | quit _ _ => exact le_rfl

/-- What arrives from outside pays for all steps that are left. -/
theorem affords_of_reaches (hnet : ∀ c m, (net.body c m).Within price (price c m)) (h : net.Reaches ok .start s) :
    Affords price s (total (net.fed price) s.put + Fintype.card P) := by
  refine h.invariant (I := fun s => Affords price s (total (net.fed price) s.put + Fintype.card P)) ?_ ?_ ?_
  · simpa [total,NetState.put,NetState.start] using affords_start
  · intro s t hn hst
    obtain ⟨j,hj,haff⟩ := hn.step hnet hst
    exact haff.mono (by have := hst.total_put_le (net.fed price); omega)
  · intro s t hn hout
    cases hout with
    | @arrive c m hc _ _ =>
      obtain ⟨budget,hb,hle⟩ := hn
      refine ⟨budget,hb,?_⟩
      rw [NetState.put_push,total_append,NetState.push,total_append,fed,if_pos hc]
      omega
    | stop p => exact hn
    | lose _ => exact hn

/-- Some sequence of steps cannot be continued. -/
theorem Affords.exists_stuck (hnet : ∀ c m, (net.body c m).Within price (price c m)) {n : ℕ}
    (h : Affords price s n) : ∃ t, Relation.ReflTransGen net.Step s t ∧ ∀ u, ¬ net.Step t u := by
  induction n using Nat.strong_induction_on generalizing s with
  | _ n ih =>
    by_cases hstuck : ∀ t, ¬ net.Step s t
    · exact ⟨s,.refl,hstuck⟩
    push Not at hstuck
    obtain ⟨u,hu⟩ := hstuck
    obtain ⟨j,hj,haff⟩ := h.step hnet hu
    obtain ⟨t,ht,hend⟩ := ih j hj haff
    exact ⟨t,.head hu ht,hend⟩

end Cost

section Balance
variable {M : Type} [AddCommMonoid M] {r : M → M → Prop} {value out : (c : Ch) → Msg c → M}

/-- A comparison of sums that may be made summand by summand. -/
structure AddStable (r : M → M → Prop) : Prop where
  refl : ∀ a, r a a
  trans : ∀ {a b c}, r a b → r b c → r a c
  add : ∀ {a b} (c), r a b → r (c + a) (c + b)

theorem addStable_eq : AddStable (Eq : M → M → Prop) :=
  ⟨fun _ => rfl,Eq.trans,fun c h => congrArg (c + ·) h⟩

theorem addStable_le [Preorder M] [AddLeftMono M] : AddStable ((· ≤ ·) : M → M → Prop) :=
  ⟨le_refl,le_trans,fun c h => add_le_add_right h c⟩

theorem AddStable.add_right (hr : AddStable r) {a b : M} (c : M) (h : r a b) : r (a + c) (b + c) := by
  rw [add_comm a,add_comm b]
  exact hr.add c h

omit [DecidableEq Ch] in
theorem emits_mono (hr : AddStable r) {prog : Prog Msg Reply} {x y : M} (h : prog.Emits r value x) (hxy : r x y) :
    prog.Emits r value y := by
  induction prog generalizing x with
  | done => exact hr.trans h hxy
  | send c m next _ =>
    obtain ⟨z,hz,hle⟩ := h
    exact ⟨z,hz,hr.trans hle hxy⟩
  | peek c next ih => exact fun n => ih n (h n) hxy
  | ask q next ih => exact fun a => ih a (h a) hxy
  | crash => exact hr.trans h hxy
  | exit => exact hr.trans h hxy

omit [DecidableEq Ch] in
/-- A program that sends nothing of value emits nothing. -/
theorem emits_zero (hr : AddStable r) {prog : Prog Msg Reply} (h : prog.Sends fun c m => value c m = 0) :
    prog.Emits r value 0 := by
  induction prog with
  | done => exact hr.refl 0
  | send c m next ih => exact ⟨0,ih h.2,by rw [h.1,add_zero]; exact hr.refl 0⟩
  | peek c next ih => exact fun n => ih n (h n)
  | ask q next ih => exact fun a => ih a (h a)
  | crash => exact hr.refl 0
  | exit => exact hr.refl 0

variable [Fintype P] [Fintype Ch]

/-- The value of all that was sent and of what the loops will still send for the messages they have
taken, against what these messages are to yield. -/
def Balanced (r : M → M → Prop) (value out : (c : Ch) → Msg c → M) (s : NetState P Msg Reply) : Prop :=
  ∃ pending : P → M, (∀ p, (s.proc p).Emits r value (pending p)) ∧
    r (total value s.put + ∑ p, pending p) (total out s.taken)

omit [DecidableEq P] [DecidableEq Ch] in
theorem balanced_start (hr : AddStable r) : Balanced r value out (.start : NetState P Msg Reply) := by
  refine ⟨fun _ => 0,fun p => hr.refl 0,?_⟩
  simpa [total,NetState.put,NetState.start] using hr.refl 0

omit [DecidableEq Ch] in
/-- A loop goes on with a program that emits what the sides of the balance have changed by. -/
theorem Balanced.resume (h : Balanced r value out s) (s' : NetState P Msg Reply) (hproc : s'.proc = s.proc) {p : P}
    {prog : Prog Msg Reply} (hp : ∀ x, (s.proc p).Emits r value x → ∃ y, prog.Emits r value y ∧
      ∀ z, r (total value s.put + (x + z)) (total out s.taken) →
        r (total value s'.put + (y + z)) (total out s'.taken)) : Balanced r value out (s'.resume p prog) := by
  obtain ⟨pending,hpend,hbal⟩ := h
  obtain ⟨y,hy,hkeep⟩ := hp _ (hpend p)
  rw [← Finset.add_sum_erase Finset.univ pending (Finset.mem_univ p)] at hbal
  refine ⟨update pending p y,?_,?_⟩
  · intro q
    by_cases hq : q = p
    · subst hq
      simpa only [NetState.resume,update_self] using hy
    · simpa only [NetState.resume,update_of_ne hq,hproc] using hpend q
  · rw [sum_update]
    exact hkeep _ hbal

theorem Balanced.sent (hr : AddStable r) (h : Balanced r value out s) {p : P} {c : Ch} {m : Msg c}
    {next : Prog Msg Reply} (hp : s.proc p = .send c m next) : Balanced r value out (sent s p c m next) := by
  refine h.resume (s.push c m) rfl ?_
  intro x hx
  rw [hp] at hx
  obtain ⟨y,hy,hxy⟩ := hx
  refine ⟨y,hy,fun z hz => ?_⟩
  rw [NetState.put_push,total_append,add_assoc,← add_assoc (value c m)]
  exact hr.trans (hr.add _ (hr.add_right z hxy)) hz

theorem Balanced.received (hr : AddStable r) (hnet : ∀ c m, (net.body c m).Emits r value (out c m))
    (h : Balanced r value out s) {p : P} {m : Msg (net.home p)} {rest : List (Msg (net.home p))}
    (hp : s.proc p = .done) (hq : s.queue (net.home p) = m :: rest) :
    Balanced r value out (net.received s p m rest) := by
  refine h.resume (s.take (net.home p) m rest) rfl ?_
  intro x hx
  rw [hp] at hx
  refine ⟨out _ m,hnet _ m,fun z hz => ?_⟩
  have hz' : r (total value s.put + z) (total out s.taken) := by
    refine hr.trans (hr.add _ ?_) hz
    simpa only [zero_add] using hr.add_right z hx
  rw [NetState.put_take hq,NetState.take,total_append,add_left_comm,add_comm (total out s.taken)]
  exact hr.add _ hz'

theorem Balanced.step (hr : AddStable r) (hnet : ∀ c m, (net.body c m).Emits r value (out c m))
    (h : Balanced r value out s) (hst : net.Step s t) : Balanced r value out t := by
  cases hst with
  | recv hp hq => exact h.received hr hnet hp hq
  | send hp _ => exact h.sent hr hp
  | hand hp hq hempty =>
    obtain ⟨hdone,hqueue⟩ := proc_queue_sent hp hq hempty
    exact (h.sent hr hp).received hr hnet hdone hqueue
  | look hp =>
    refine h.resume s rfl fun x hx => ?_
    rw [hp] at hx
    exact ⟨x,hx _,fun z hz => hz⟩
  | reply a hp _ =>
    refine h.resume s rfl fun x hx => ?_
    rw [hp] at hx
    exact ⟨x,hx a,fun z hz => hz⟩
  | quit hp _ =>
    refine h.resume s rfl fun x hx => ?_
    rw [hp] at hx
    exact ⟨x,hx,fun z hz => hz⟩

/-- Whatever the interleaving, the balance holds if what arrives from outside has no value. -/
theorem Balanced.reaches (hr : AddStable r) (hnet : ∀ c m, (net.body c m).Emits r value (out c m))
    (hsource : ∀ c, net.source c = true → ∀ m, value c m = 0) (h : Balanced r value out s)
    (hreach : net.Reaches ok s t) : Balanced r value out t := by
  refine hreach.invariant h (fun hi hst => hi.step hr hnet hst) ?_
  intro s t hi hout
  cases hout with
  | @arrive c m hc _ _ =>
    obtain ⟨pending,hpend,hbal⟩ := hi
    refine ⟨pending,hpend,?_⟩
    rw [NetState.put_push,total_append,hsource c hc m,add_zero]
    exact hbal
  | stop p => exact hi
  | lose _ => exact hi

omit [DecidableEq P] [DecidableEq Ch] in
/-- The messages that were taken off all channels yielded what was sent, once nothing is left to do. -/
theorem Balanced.idle (hr : AddStable r) (h : Balanced r value out s) (hidle : s.Idle) :
    r (total value s.taken) (total out s.taken) := by
  obtain ⟨pending,hpend,hbal⟩ := h
  have hput : s.put = s.taken := by
    funext c
    rw [NetState.put,hidle.empty c,List.append_nil]
  have hzero : r 0 (∑ p, pending p) := by
    refine Finset.sum_induction pending (r 0) (fun a b ha hb => ?_) (hr.refl 0) (fun p _ => ?_)
    · exact hr.trans hb (by simpa only [zero_add] using hr.add_right b ha)
    · have hp := hpend p
      rw [hidle.waiting p] at hp
      exact hp
  have hle := hr.add (total value s.put) hzero
  rw [add_zero] at hle
  rw [← hput]
  rw [hput] at hle hbal ⊢
  exact hr.trans hle hbal

end Balance

section Sequential
variable {taken : (c : Ch) → List (Msg c)} {p q : P} {next : Prog Msg Reply}

/-- All loops wait but one, which is busy with a program; these messages have been taken. -/
def solo (taken : (c : Ch) → List (Msg c)) (p : P) (prog : Prog Msg Reply) : NetState P Msg Reply :=
  ⟨taken,fun _ => [],update (fun _ => .done) p prog,fun _ => false,fun _ => false⟩

/-- The messages with one more that was taken. -/
def noted (taken : (c : Ch) → List (Msg c)) (c : Ch) (m : Msg c) : (c : Ch) → List (Msg c) :=
  update taken c (taken c ++ [m])

omit [DecidableEq Ch] in
theorem proc_solo (prog : Prog Msg Reply) : (solo taken p prog).proc p = prog :=
  update_self _ _ (fun _ : P => (.done : Prog Msg Reply))

omit [DecidableEq Ch] in
theorem proc_solo_of_ne (h : q ≠ p) (prog : Prog Msg Reply) : (solo taken p prog).proc q = .done :=
  update_of_ne h _ (fun _ : P => (.done : Prog Msg Reply))

omit [DecidableEq Ch] in
theorem solo_done (p q : P) : (solo taken p .done : NetState P Msg Reply) = solo taken q .done := by
  rw [solo,solo,update_eq_self,update_eq_self]

omit [DecidableEq Ch] in
theorem start_eq_solo (p : P) : (.start : NetState P Msg Reply) = solo (fun _ => []) p .done := by
  have hdone : update (fun _ => (.done : Prog Msg Reply)) p .done = fun _ => .done := update_eq_self p _
  rw [solo,hdone]
  rfl

omit [DecidableEq Ch] in
theorem solo_resume (prog : Prog Msg Reply) : (solo taken p prog).resume p next = solo taken p next := by
  rw [NetState.resume,solo,solo,update_idem]

theorem sent_solo {c : Ch} (m : Msg c) (prog : Prog Msg Reply) :
    sent (solo taken p prog) p c m next = (solo taken p next).push c m := by
  simp only [sent,NetState.resume,NetState.push,solo,update_idem]

/-- A message that is taken at once leaves no channel filled. -/
theorem received_push_solo (m : Msg (net.home q)) (prog : Prog Msg Reply) :
    net.received ((solo taken p prog).push (net.home q) m) q m [] =
      (solo (noted taken (net.home q) m) p prog).resume q (net.body (net.home q) m) := by
  have hempty : update (fun _ => []) (net.home q) [] = fun c : Ch => ([] : List (Msg c)) :=
    update_eq_self (net.home q) (fun c : Ch => ([] : List (Msg c)))
  simp only [received,NetState.take,NetState.push,NetState.resume,solo,noted,update_idem,hempty]

theorem Reaches.look {c : Ch} {next : ℕ → Prog Msg Reply} (h : net.Reaches ok .start (solo taken p (.peek c next))) :
    net.Reaches ok .start (solo taken p (next 0)) := by
  have hstep := h.tail (.inl (.look (proc_solo _)))
  rwa [solo_resume] at hstep

theorem Reaches.reply {x : Q} {next : Reply x → Prog Msg Reply} (h : net.Reaches ok .start (solo taken p (.ask x next)))
    (a : Reply x) : net.Reaches ok .start (solo taken p (next a)) := by
  have hstep := h.tail (.inl (.reply a (proc_solo _) rfl))
  rwa [solo_resume] at hstep

/-- Another loop takes the message, and both go on. -/
theorem Reaches.hand {m : Msg (net.home q)} (h : net.Reaches ok .start (solo taken p (.send (net.home q) m next)))
    (hne : q ≠ p) : net.Reaches ok .start
      ((solo (noted taken (net.home q) m) p next).resume q (net.body (net.home q) m)) := by
  have hstep := h.tail (.inl (.hand (proc_solo _) (proc_solo_of_ne hne _) rfl))
  rwa [sent_solo,received_push_solo] at hstep

/-- The last message of a program is passed on. -/
theorem Reaches.pass {m : Msg (net.home q)} (h : net.Reaches ok .start (solo taken p (.send (net.home q) m .done)))
    (hne : q ≠ p) : net.Reaches ok .start (solo (noted taken (net.home q) m) q (net.body (net.home q) m)) := by
  have hstep := h.hand hne
  rwa [solo_done p q,solo_resume] at hstep

/-- A message is dealt with by one question while its sender waits. -/
theorem Reaches.settle {m : Msg (net.home q)} (h : net.Reaches ok .start (solo taken p (.send (net.home q) m next)))
    (hne : q ≠ p) {x : Q} (hbody : net.body (net.home q) m = .ask x fun _ => .done) (a : Reply x) :
    net.Reaches ok .start (solo (noted taken (net.home q) m) p next) := by
  have hhand := h.hand hne
  rw [hbody] at hhand
  have hstep := hhand.tail (.inl (.reply a (update_self _ _ _) rfl))
  have hdone : update (solo (noted taken (net.home q) m) p next).proc q .done =
      (solo (noted taken (net.home q) m) p next).proc := by
    rw [← proc_solo_of_ne hne next,update_eq_self]
  rwa [NetState.resume,NetState.resume,update_idem,hdone] at hstep

/-- A message from outside is taken when all loops wait. -/
theorem Reaches.arrive (h : net.Reaches ok .start (solo taken p .done)) (q : P) (m : Msg (net.home q))
    (hsource : net.source (net.home q) = true) (hcap : 0 < net.cap (net.home q)) (hm : ok (net.home q) m) :
    net.Reaches ok .start (solo (noted taken (net.home q) m) q (net.body (net.home q) m)) := by
  have harrived := h.tail (.inr (.arrive hsource hcap hm))
  rw [solo_done p q] at harrived
  have hwaits : (solo taken q .done : NetState P Msg Reply).proc q = .done := proc_solo _
  have hstep := harrived.tail (.inl (.recv hwaits (update_self _ _ _)))
  rwa [received_push_solo,solo_resume] at hstep

omit [DecidableEq Ch] in
theorem idle_solo : (solo taken p .done : NetState P Msg Reply).Idle := by
  refine ⟨fun q => ?_,fun c => rfl⟩
  rw [solo_done p q,proc_solo]

end Sequential

end Network

end DhtOcean.Foundation
