import DhtOcean.Foundation.Transition
import Mathlib.Data.Nat.Notation

/-! # Writing tracker state back from a queue

Two loops of the tracker service write single fields of a stored torrent, and one
of them publishes the whole document afterwards. The consumer of these snapshots
writes all fields back. A snapshot is harmless as long as it still equals the
document, so what matters is whether a field is written while one is in flight.
-/
namespace DhtOcean.Store
open Foundation
variable {R : Type}

/-- The document, with dates in milliseconds. None of the three writers sets a field of `rest` by itself. -/
structure Torrent (R : Type) where
  seeders : Option UInt32
  leechers : Option UInt32
  trackerUpdatedAt : Option ℕ
  updatedAt : Option ℕ
  searchUpdated : Bool
  trackerLastTriedAt : Option ℕ
  rest : R

/-- A document with the number of the result that its counts are from. No writer reads the number. -/
structure Version (R : Type) where
  torrent : Torrent R
  serial : ℕ

structure System (R : Type) where
  clock : ℕ
  doc : Version R
  /-- `refreshTracker` has the document among its records and is about to touch it. -/
  selected : Bool
  /-- When the results being handled were received. -/
  resultsAt : ℕ
  /-- The document that `handleResult` read back and has yet to publish. -/
  unpublished : Option (Version R)
  queue : List (Version R)
  results : ℕ

inductive Event
  | tick (d : ℕ)
  | getRecords
  | refreshTracker (ok : Bool)
  | receiveResults
  | handleResult (seeders leechers : UInt32)
  | publish (ok : Bool)
  | consumeNewTorrent

def sixHours : ℕ := 6*60*60*1000

/-- The query of `getRecords`; a missing date is not below any other. -/
def due (clock : ℕ) (t : Torrent R) : Bool :=
  match t.trackerLastTriedAt with
  | some tried => tried + sixHours ≤ clock
  | none => false

def touched (clock : ℕ) (v : Version R) : Version R :=
  { v with torrent := { v.torrent with trackerLastTriedAt := some clock } }

def scraped (s : System R) (seeders leechers : UInt32) : Version R where
  torrent := { s.doc.torrent with
    seeders := some seeders
    leechers := some leechers
    searchUpdated := false
    trackerUpdatedAt := some s.resultsAt
    updatedAt := some s.resultsAt }
  serial := s.results + 1

/-- One step of one of the loops. `refreshTracker` is split behind its query and `handleResult`
behind its update, where the other loops can run. -/
def step (s : System R) : Event → Option (System R)
  | .tick d => some { s with clock := s.clock + d }
  | .getRecords =>
    if s.selected = false ∧ due s.clock s.doc.torrent then some { s with selected := true } else none
  | .refreshTracker ok =>
    if s.selected then some { s with selected := false, doc := if ok then touched s.clock s.doc else s.doc }
    else none
  | .receiveResults => if s.unpublished.isNone then some { s with resultsAt := s.clock } else none
  | .handleResult seeders leechers =>
    if s.unpublished.isNone then
      let v := scraped s seeders leechers
      some { s with doc := v, unpublished := some v, results := s.results + 1 }
    else none
  | .publish ok =>
    match s.unpublished with
    | some v => some { s with unpublished := none, queue := if ok then s.queue ++ [v] else s.queue }
    | none => none
  | .consumeNewTorrent =>
    match s.queue with
    | v :: queue => some { s with doc := v, queue := queue }
    | [] => none

/-- A date neither decreases nor returns to null. -/
def NotBefore : Option ℕ → Option ℕ → Prop
  | none, _ => True
  | some t, some t' => t ≤ t'
  | some _, none => False

/-- What a step must keep of the tracker state. -/
structure Keeps (v v' : Version R) : Prop where
  tried : NotBefore v.torrent.trackerLastTriedAt v'.torrent.trackerLastTriedAt
  updated : NotBefore v.torrent.trackerUpdatedAt v'.torrent.trackerUpdatedAt
  counts : v.serial ≤ v'.serial

def inFlight (s : System R) : List (Version R) := s.queue ++ s.unpublished.toList

/-- The tracker service writes only while no snapshot is in flight. -/
def Quiet (s : System R) : Event → Prop
  | .refreshTracker true => inFlight s = []
  | .handleResult _ _ => inFlight s = []
  | _ => True

/-- No snapshot in flight, and no date of the document ahead of the clock. -/
structure Initial (s : System R) : Prop where
  none_inFlight : inFlight s = []
  not_selected : s.selected = false
  tried : NotBefore s.doc.torrent.trackerLastTriedAt (some s.clock)
  updated : NotBefore s.doc.torrent.trackerUpdatedAt (some s.resultsAt)
  received : s.resultsAt ≤ s.clock
  counted : s.doc.serial ≤ s.results

theorem NotBefore.refl (t : Option ℕ) : NotBefore t t := by
  cases t with
  | none => trivial
  | some t => exact Nat.le_refl _

theorem NotBefore.later {t : Option ℕ} {a b : ℕ} (h : NotBefore t (some a)) (hab : a ≤ b) :
    NotBefore t (some b) := by
  cases t with
  | none => trivial
  | some t => exact Nat.le_trans h hab

theorem Keeps.refl (v : Version R) : Keeps v v := ⟨.refl _,.refl _,Nat.le_refl _⟩

/-- What holds in every state of a quiet run: each snapshot in flight is the document itself. -/
structure Current (s : System R) : Prop where
  snapshot : ∀ v ∈ inFlight s, v = s.doc
  selected_due : s.selected = true → due s.clock s.doc.torrent = true
  tried : NotBefore s.doc.torrent.trackerLastTriedAt (some s.clock)
  updated : NotBefore s.doc.torrent.trackerUpdatedAt (some s.resultsAt)
  received : s.resultsAt ≤ s.clock
  counted : s.doc.serial ≤ s.results

theorem Initial.current {s : System R} (h : Initial s) : Current s where
  snapshot := by simp [h.none_inFlight]
  selected_due := by simp [h.not_selected]
  tried := h.tried
  updated := h.updated
  received := h.received
  counted := h.counted

theorem due_later {clock d : ℕ} {t : Torrent R} (h : due clock t = true) : due (clock+d) t = true := by
  unfold due at h ⊢
  cases ht : t.trackerLastTriedAt with
  | none => simp [ht] at h
  | some tried =>
    simp only [ht,decide_eq_true_eq] at h ⊢
    omega

theorem step_cases {s t : System R} {e : Event} (h : step s e = some t) :
    (∃ d, e = .tick d ∧ t = { s with clock := s.clock + d }) ∨
    (e = .getRecords ∧ due s.clock s.doc.torrent = true ∧ t = { s with selected := true }) ∨
    (e = .refreshTracker true ∧ s.selected = true ∧
      t = { s with selected := false, doc := touched s.clock s.doc }) ∨
    (e = .refreshTracker false ∧ t = { s with selected := false }) ∨
    (e = .receiveResults ∧ t = { s with resultsAt := s.clock }) ∨
    (∃ n m, e = .handleResult n m ∧ s.unpublished = none ∧
      t = { s with doc := scraped s n m, unpublished := some (scraped s n m), results := s.results + 1 }) ∨
    (∃ v, e = .publish true ∧ s.unpublished = some v ∧
      t = { s with unpublished := none, queue := s.queue ++ [v] }) ∨
    (e = .publish false ∧ t = { s with unpublished := none }) ∨
    (∃ v queue, e = .consumeNewTorrent ∧ s.queue = v :: queue ∧ t = { s with doc := v, queue := queue }) := by
  cases e with
  | tick d => exact .inl ⟨d,rfl,(Option.some.inj h).symm⟩
  | getRecords =>
    simp only [step,Option.ite_none_right_eq_some,Option.some.injEq] at h
    exact .inr (.inl ⟨rfl,h.1.2,h.2.symm⟩)
  | refreshTracker ok =>
    simp only [step,Option.ite_none_right_eq_some,Option.some.injEq] at h
    cases ok with
    | true => exact .inr (.inr (.inl ⟨rfl,h.1,h.2.symm⟩))
    | false => exact .inr (.inr (.inr (.inl ⟨rfl,h.2.symm⟩)))
  | receiveResults =>
    simp only [step,Option.ite_none_right_eq_some,Option.some.injEq] at h
    exact .inr (.inr (.inr (.inr (.inl ⟨rfl,h.2.symm⟩))))
  | handleResult n m =>
    simp only [step,Option.ite_none_right_eq_some,Option.some.injEq,Option.isNone_iff_eq_none] at h
    exact .inr (.inr (.inr (.inr (.inr (.inl ⟨n,m,rfl,h.1,h.2.symm⟩)))))
  | publish ok =>
    cases hu : s.unpublished with
    | none => simp [step,hu] at h
    | some v =>
      simp only [step,hu,Option.some.injEq] at h
      cases ok with
      | true => exact .inr (.inr (.inr (.inr (.inr (.inr (.inl ⟨v,rfl,rfl,h.symm⟩))))))
      | false => exact .inr (.inr (.inr (.inr (.inr (.inr (.inr (.inl ⟨rfl,h.symm⟩)))))))
  | consumeNewTorrent =>
    cases hq : s.queue with
    | nil => simp [step,hq] at h
    | cons v queue =>
      simp only [step,hq,Option.some.injEq] at h
      exact .inr (.inr (.inr (.inr (.inr (.inr (.inr (.inr ⟨v,queue,rfl,rfl,h.symm⟩)))))))

/-- Where every snapshot is current, no step moves the tracker state back. -/
theorem Current.keeps {s t : System R} {e : Event} (hs : Current s) (h : step s e = some t) :
    Keeps s.doc t.doc := by
  rcases step_cases h with ⟨d,-,rfl⟩ | ⟨-,-,rfl⟩ | ⟨-,-,rfl⟩ | ⟨-,rfl⟩ | ⟨-,rfl⟩ | ⟨n,m,-,-,rfl⟩ |
    ⟨v,-,-,rfl⟩ | ⟨-,rfl⟩ | ⟨v,queue,-,hq,rfl⟩
  case inr.inr.inl => exact ⟨hs.tried,.refl _,Nat.le_refl _⟩
  case inr.inr.inr.inr.inr.inl => exact ⟨.refl _,hs.updated,Nat.le_succ_of_le hs.counted⟩
  case inr.inr.inr.inr.inr.inr.inr.inr =>
    -- The snapshot that is written back is the document.
    obtain rfl : v = s.doc := hs.snapshot v (by simp [inFlight,hq])
    exact .refl _
  all_goals exact .refl _

theorem Current.next {s t : System R} {e : Event} (hs : Current s) (hg : Quiet s e)
    (h : step s e = some t) : Current t := by
  rcases step_cases h with ⟨d,-,rfl⟩ | ⟨-,hdue,rfl⟩ | ⟨rfl,-,rfl⟩ | ⟨-,rfl⟩ | ⟨-,rfl⟩ | ⟨n,m,rfl,-,rfl⟩ |
    ⟨v,-,hu,rfl⟩ | ⟨-,rfl⟩ | ⟨v,queue,-,hq,rfl⟩
  · exact ⟨hs.snapshot,fun hsel => due_later (hs.selected_due hsel),hs.tried.later (Nat.le_add_right _ _),
      hs.updated,Nat.le_add_right_of_le hs.received,hs.counted⟩
  · exact ⟨hs.snapshot,fun _ => hdue,hs.tried,hs.updated,hs.received,hs.counted⟩
  · have hnone : inFlight s = [] := hg
    refine ⟨?_,by simp,Nat.le_refl _,hs.updated,hs.received,hs.counted⟩
    intro v hv
    have hv' : v ∈ inFlight s := hv
    simp [hnone] at hv'
  · exact ⟨hs.snapshot,by simp,hs.tried,hs.updated,hs.received,hs.counted⟩
  · exact ⟨hs.snapshot,hs.selected_due,hs.tried,hs.updated.later hs.received,Nat.le_refl _,hs.counted⟩
  · have hqueue : s.queue = [] := (List.append_eq_nil_iff.mp hg).1
    refine ⟨?_,hs.selected_due,hs.tried,Nat.le_refl _,hs.received,Nat.le_refl _⟩
    simp [inFlight,hqueue]
  · refine ⟨?_,hs.selected_due,hs.tried,hs.updated,hs.received,hs.counted⟩
    intro w hw
    refine hs.snapshot w ?_
    simpa [inFlight,hu] using hw
  · refine ⟨?_,hs.selected_due,hs.tried,hs.updated,hs.received,hs.counted⟩
    intro w hw
    refine hs.snapshot w ?_
    have hw' : w ∈ s.queue := by simpa [inFlight] using hw
    exact List.mem_append_left _ hw'
  · obtain rfl : v = s.doc := hs.snapshot v (by simp [inFlight,hq])
    refine ⟨?_,hs.selected_due,hs.tried,hs.updated,hs.received,hs.counted⟩
    intro w hw
    refine hs.snapshot w ?_
    simp only [inFlight,hq] at hw ⊢
    exact List.mem_cons_of_mem _ hw

theorem reach_current {s₀ s : System R} (h₀ : Initial s₀) (hs : Reach step Quiet s₀ s) : Current s := by
  refine hs.invariant (P := Current) h₀.current ?_
  intro s e t hcur hg he
  exact hcur.next hg he

/-- The next snapshot can always be delivered while the document stays as it is. -/
theorem exists_delivery {s : System R} {w : Version R} (hne : inFlight s ≠ [])
    (hall : ∀ v ∈ inFlight s, v = w) :
    ∃ u v, Reach step (Free _ _) s u ∧ u.doc = s.doc ∧ step u .consumeNewTorrent = some v ∧ v.doc = w := by
  cases hq : s.queue with
  | cons v queue =>
    obtain rfl : v = w := hall v (by simp [inFlight,hq])
    exact ⟨s,{ s with doc := v, queue := queue },.start,rfl,by simp [step,hq],rfl⟩
  | nil =>
    cases hu : s.unpublished with
    | none => simp [inFlight,hq,hu] at hne
    | some v =>
      obtain rfl : v = w := hall v (by simp [inFlight,hu])
      refine ⟨{ s with unpublished := none, queue := [v] },{ s with unpublished := none, doc := v, queue := [] },
        .next (l := Event.publish true) .start trivial ?_,rfl,rfl,rfl⟩
      simp [step,hu,hq]

/-- A field written while a snapshot is in flight is lost again when that is consumed. -/
theorem Current.lost {s t : System R} {e : Event} (hs : Current s) (hg : ¬ Quiet s e)
    (h : step s e = some t) :
    ∃ u v, Reach step (Free _ _) t u ∧ step u .consumeNewTorrent = some v ∧ ¬ Keeps u.doc v.doc := by
  rcases step_cases h with ⟨d,rfl,-⟩ | ⟨rfl,-,-⟩ | ⟨rfl,hsel,rfl⟩ | ⟨rfl,-⟩ | ⟨rfl,-⟩ | ⟨n,m,rfl,hu,rfl⟩ |
    ⟨v,rfl,-,-⟩ | ⟨rfl,-⟩ | ⟨v,queue,rfl,-,-⟩
  case inr.inr.inl =>
    obtain ⟨u,v,hreach,hdoc,hv,hw⟩ := exists_delivery (s := { s with selected := false, doc := touched s.clock s.doc })
      hg hs.snapshot
    refine ⟨u,v,hreach,hv,?_⟩
    intro hk
    have htried := hk.tried
    have hdue := hs.selected_due hsel
    rw [hdoc,hw] at htried
    unfold due at hdue
    cases hd : s.doc.torrent.trackerLastTriedAt with
    | none => simp [hd] at hdue
    | some tried =>
      have hle : s.clock ≤ tried := by simpa [touched,hd,NotBefore] using htried
      have hage : tried + sixHours ≤ s.clock := by simpa [hd] using hdue
      have hsix : 0 < sixHours := by decide
      omega
  case inr.inr.inr.inr.inr.inl =>
    cases hq : s.queue with
    | nil => exact absurd (show inFlight s = [] by simp [inFlight,hq,hu]) hg
    | cons w queue =>
      obtain rfl : w = s.doc := hs.snapshot w (by simp [inFlight,hq])
      refine ⟨_,_,.start,rfl,?_⟩
      intro hk
      have hcounts : s.results + 1 ≤ s.doc.serial := hk.counts
      have := hs.counted
      omega
  all_goals exact absurd trivial hg

section Sample

/-- A torrent that was tried at time 0 and has no counts yet. -/
def untracked : System Unit where
  clock := 0
  doc := ⟨⟨none,none,none,some 0,false,some 0,()⟩,0⟩
  selected := false
  resultsAt := 0
  unpublished := none
  queue := []
  results := 0

theorem untracked_initial : Initial untracked := ⟨rfl,rfl,Nat.le_refl _,trivial,Nat.le_refl _,Nat.le_refl _⟩

/-- Two results in turn, the snapshot of the first of which is written back before the second comes in. -/
def twoResults : List Event :=
  [.handleResult 3 1,.publish true,.consumeNewTorrent,.tick 1,.receiveResults,.handleResult 5 1,.publish true]

theorem twoResults_quiet : Guarded step Quiet untracked twoResults := by
  refine ⟨rfl,?_⟩
  rintro _ ⟨⟩
  refine ⟨trivial,?_⟩
  rintro _ ⟨⟩
  refine ⟨trivial,?_⟩
  rintro _ ⟨⟩
  refine ⟨trivial,?_⟩
  rintro _ ⟨⟩
  refine ⟨trivial,?_⟩
  rintro _ ⟨⟩
  refine ⟨rfl,?_⟩
  rintro _ ⟨⟩
  exact ⟨trivial,fun _ _ => trivial⟩

end Sample

/-- The tracker state only moves forward in every run in which the tracker service writes while no
snapshot is in flight; after any other write of it, some snapshot undoes it. -/
theorem no_stale_overwrite_iff_quiet {s₀ : System R} (h₀ : Initial s₀) :
    (∀ s e t, Reach step Quiet s₀ s → step s e = some t → Keeps s.doc t.doc) ∧
    (∀ s e t, Reach step Quiet s₀ s → ¬ Quiet s e → step s e = some t →
      ∃ u v, Reach step (Free _ _) t u ∧ step u .consumeNewTorrent = some v ∧ ¬ Keeps u.doc v.doc) := by
  refine ⟨?_,?_⟩
  · intro s e t hs h
    exact (reach_current h₀ hs).keeps h
  · intro s e t hs hg h
    exact (reach_current h₀ hs).lost hg h

/-- The second snapshot is written back as well, and nothing is lost. -/
theorem twoResults_kept : ∃ s t, Reach step Quiet untracked s ∧ step s .consumeNewTorrent = some t ∧
    s.queue.map (fun v => v.torrent.seeders) = [some 5] ∧ t.doc.torrent.seeders = some 5 ∧
    t.doc.torrent.trackerUpdatedAt = some 1 ∧ Keeps s.doc t.doc := by
  have hreach := Reach.of_guarded twoResults rfl twoResults_quiet
  exact ⟨_,_,hreach,rfl,rfl,rfl,rfl,(no_stale_overwrite_iff_quiet untracked_initial).1 _ .consumeNewTorrent _ hreach rfl⟩

/-- Consuming a snapshot resets the date of the last try in one run, and the counts with their
date in another. -/
theorem snapshot_undoes_writes :
    (∃ s t, Reach step (Free _ _) untracked s ∧ step s .consumeNewTorrent = some t ∧
      s.doc.torrent.trackerLastTriedAt = some sixHours ∧ t.doc.torrent.trackerLastTriedAt = some 0) ∧
    (∃ s t, Reach step (Free _ _) untracked s ∧ step s .consumeNewTorrent = some t ∧
      s.doc.torrent.seeders = some 5 ∧ s.doc.torrent.trackerUpdatedAt = some 1 ∧
      t.doc.torrent.seeders = some 3 ∧ t.doc.torrent.trackerUpdatedAt = some 0) := by
  constructor
  · exact ⟨_,_,Reach.of_run [.handleResult 3 1,.publish true,.tick sixHours,.getRecords,.refreshTracker true]
      rfl,rfl,rfl,rfl⟩
  · exact ⟨_,_,Reach.of_run [.handleResult 3 1,.publish true,.tick 1,.receiveResults,.handleResult 5 1,
      .publish true] rfl,rfl,rfl,rfl,rfl,rfl⟩

end DhtOcean.Store
