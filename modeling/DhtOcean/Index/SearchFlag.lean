import DhtOcean.Foundation.Transition
import Mathlib.Data.Nat.Notation

/-! # The flag search_updated of one torrent

The tracker service writes new counts, clears the flag and queues a snapshot. The
indexer saves snapshots in batches and leaves it to a goroutine to set the flag
again, by the ID alone. The flag is sound as long as it is set while nothing of the
torrent is under way and the newest snapshot has not been lost, on its way into the
queue or into the index.
-/
namespace DhtOcean.SearchFlag
open Foundation

structure Counts where
  seeders : UInt32
  leechers : UInt32
  deriving DecidableEq, Repr

/-- `counts` and `searchUpdated` are those of the document in the database, `index` is what the search
index has accepted last. `unpublished` is the document that `handleResult` has yet to publish, and
`flagging` counts the goroutines that have yet to set the flag. -/
structure System where
  counts : Option Counts
  searchUpdated : Bool
  unpublished : Option Counts
  queue : List Counts
  batch : List Counts
  index : Option Counts
  flagging : ℕ

inductive Event
  | handleResult (counts : Counts)
  | publish (ok : Bool)
  /-- `Start` takes the next delivery into its batch. -/
  | receive
  /-- The bulk call accepts some of the items, and returns nil or an error. -/
  | batchSave (accepted : List Bool) (ok : Bool)
  | setFlag (ok : Bool)
  deriving DecidableEq

/-- The items of a bulk call, one after the other. -/
def saveItems (items : List (Counts × Bool)) (index : Option Counts) : Option Counts :=
  items.foldl (fun index item => if item.2 then some item.1 else index) index

/-- A batch that is not saved is requeued as it was. -/
def step (s : System) : Event → Option System
  | .handleResult counts =>
    if s.unpublished.isNone then
      some { s with counts := some counts, searchUpdated := false, unpublished := some counts }
    else none
  | .publish ok =>
    match s.unpublished with
    | some counts => some { s with unpublished := none, queue := if ok then s.queue ++ [counts] else s.queue }
    | none => none
  | .receive =>
    match s.queue with
    | counts :: queue => some { s with queue := queue, batch := s.batch ++ [counts] }
    | [] => none
  | .batchSave accepted ok =>
    if s.batch ≠ [] ∧ accepted.length = s.batch.length then
      let s' := { s with index := saveItems (s.batch.zip accepted) s.index, batch := [] }
      if ok then some { s' with flagging := s.flagging + 1 } else some { s' with queue := s.batch ++ s.queue }
    else none
  | .setFlag ok =>
    if 0 < s.flagging then
      some { s with flagging := s.flagging - 1, searchUpdated := if ok then true else s.searchUpdated }
    else none

def inFlight (s : System) : List Counts := s.batch ++ (s.queue ++ s.unpublished.toList)

/-- Every publication succeeds, a bulk call that returns nil rejects no item, and the flag is set while
no snapshot is in flight. -/
def Orderly (s : System) : Event → Prop
  | .publish ok => ok = true
  | .batchSave accepted ok => ok = true → ∀ a ∈ accepted, a = true
  | .setFlag ok => ok = true → inFlight s = []
  | _ => True

instance decidableOrderly (s : System) : ∀ e, Decidable (Orderly s e)
  | .handleResult _ => isTrue trivial
  | .publish ok => inferInstanceAs (Decidable (ok = true))
  | .receive => isTrue trivial
  | .batchSave accepted ok => inferInstanceAs (Decidable (ok = true → ∀ a ∈ accepted, a = true))
  | .setFlag ok => inferInstanceAs (Decidable (ok = true → inFlight s = []))

section Watch

/-- Whether the newest snapshot is lost: it was not published, or it came last in a bulk call that returned nil
and rejected it. A new result is a new snapshot. -/
def lostAfter (s : System) (lost : Bool) : Event → Bool
  | .handleResult _ => false
  | .publish ok => lost || !ok
  | .batchSave accepted true => lost || ((s.queue ++ s.unpublished.toList).isEmpty && accepted.getLast? != some true)
  | _ => lost

/-- The system, with a note of whether the newest snapshot is lost. No service reads it. -/
def watch (x : System × Bool) (e : Event) : Option (System × Bool) := (step x.1 e).map (·,lostAfter x.1 x.2 e)

/-- The flag is set while no snapshot is in flight and the newest is not lost. -/
def NewestSaved (x : System × Bool) : Event → Prop
  | .setFlag ok => ok = true → inFlight x.1 = [] ∧ x.2 = false
  | _ => True

instance decidableNewestSaved (x : System × Bool) : ∀ e, Decidable (NewestSaved x e)
  | .handleResult _ => isTrue trivial
  | .publish _ => isTrue trivial
  | .receive => isTrue trivial
  | .batchSave _ _ => isTrue trivial
  | .setFlag ok => inferInstanceAs (Decidable (ok = true → inFlight x.1 = [] ∧ x.2 = false))

end Watch

/-- A set flag means that the index has accepted the counts of the document. -/
def FlagSound (s : System) : Prop := s.searchUpdated = true → ∃ counts, s.index = some counts ∧ s.counts = some counts

/-- Nothing is under way, and the flag is not set. -/
structure Initial (s : System) : Prop where
  none_inFlight : inFlight s = []
  no_flagging : s.flagging = 0
  unset : s.searchUpdated = false

/-- Unless the newest snapshot is lost, the last one in flight has the counts of the document. With none in
flight the index has them, as soon as somebody is about to set the flag or has set it. -/
structure Synced (s : System) (lost : Bool) : Prop where
  last : lost = false → ∀ counts, (inFlight s).getLast? = some counts → s.counts = some counts
  idle : lost = false → inFlight s = [] → 0 < s.flagging ∨ s.searchUpdated = true →
    ∃ counts, s.index = some counts ∧ s.counts = some counts
  flag : s.searchUpdated = true → inFlight s = [] ∧ lost = false

theorem Synced.flagSound {s : System} {lost : Bool} (hs : Synced s lost) : FlagSound s := by
  intro h
  obtain ⟨hnone,hlost⟩ := hs.flag h
  exact hs.idle hlost hnone (.inr h)

theorem Initial.synced {s : System} (hs : Initial s) : Synced s false where
  last := by simp [hs.none_inFlight]
  idle := by simp [hs.no_flagging,hs.unset]
  flag := by simp [hs.unset]

/-- If the last item is accepted, it stays in the index. -/
theorem saveItems_last {batch : List Counts} {accepted : List Bool} (hlen : accepted.length = batch.length)
    (hlast : accepted.getLast? = some true) (index : Option Counts) :
    saveItems (batch.zip accepted) index = batch.getLast? := by
  obtain ⟨accepted,rfl⟩ := List.getLast?_eq_some_iff.mp hlast
  rcases List.eq_nil_or_concat batch with rfl | ⟨batch,counts,rfl⟩
  · simp at hlen
  · have hinit : batch.length = accepted.length := by simpa using hlen.symm
    rw [List.concat_eq_append,List.zip_append hinit,saveItems,List.foldl_append,List.getLast?_concat]
    rfl

section Step
variable {s t : System} {lost : Bool}

/-- A new result is in flight itself. -/
theorem synced_handleResult {counts : Counts} (h : step s (.handleResult counts) = some t) : Synced t false := by
  simp only [step,Option.ite_none_right_eq_some,Option.some.injEq] at h
  obtain ⟨-,rfl⟩ := h
  refine ⟨?_,?_,by simp⟩
  · intro _ c hc
    simpa [inFlight] using hc
  · intro _ hnone
    simp [inFlight] at hnone

/-- Steps that only move snapshots on. -/
theorem Synced.move (hs : Synced s lost) (hflight : inFlight t = inFlight s) (hcounts : t.counts = s.counts)
    (hflag : t.searchUpdated = s.searchUpdated) (hindex : inFlight s = [] → t.index = s.index)
    (hflagging : t.flagging = s.flagging) : Synced t lost where
  last := by rw [hflight,hcounts]; exact hs.last
  idle := by
    intro hlost hnone
    rw [hflight] at hnone
    rw [hcounts,hflag,hflagging,hindex hnone]
    exact hs.idle hlost hnone
  flag := by rw [hflag,hflight]; exact hs.flag

/-- With the newest snapshot lost, nothing has to hold but that the flag is not set. -/
theorem synced_lost (hflag : s.searchUpdated = false) : Synced s true :=
  ⟨nofun,nofun,by simp [hflag]⟩

/-- The flag is not set while a snapshot is in flight. -/
theorem Synced.unset (hs : Synced s lost) (hbusy : inFlight s ≠ []) : s.searchUpdated = false := by
  rw [← Bool.not_eq_true]
  exact fun hset => hbusy (hs.flag hset).1

theorem Synced.publish (hs : Synced s lost) {ok : Bool} (h : step s (.publish ok) = some t) :
    Synced t (lost || !ok) := by
  cases hu : s.unpublished with
  | none => simp [step,hu] at h
  | some counts =>
    simp only [step,hu,Option.some.injEq] at h
    subst h
    cases ok with
    | true =>
      rw [Bool.not_true,Bool.or_false]
      exact hs.move (by simp [inFlight,hu]) rfl rfl (fun _ => rfl) rfl
    | false =>
      rw [Bool.not_false,Bool.or_true]
      exact synced_lost (hs.unset (by simp [inFlight,hu]))

theorem Synced.receive (hs : Synced s lost) (h : step s .receive = some t) : Synced t lost := by
  cases hq : s.queue with
  | nil => simp [step,hq] at h
  | cons counts queue =>
    simp only [step,hq,Option.some.injEq] at h
    subst h
    exact hs.move (by simp [inFlight,hq]) rfl rfl (fun _ => rfl) rfl

theorem Synced.batchSave (hs : Synced s lost) {accepted : List Bool} {ok : Bool}
    (h : step s (.batchSave accepted ok) = some t) : Synced t (lostAfter s lost (.batchSave accepted ok)) := by
  simp only [step,Option.ite_none_right_eq_some] at h
  obtain ⟨⟨hne,hlen⟩,h⟩ := h
  have hbusy : inFlight s ≠ [] := fun hnone => hne (List.append_eq_nil_iff.mp hnone).1
  cases ok with
  | false =>
    simp only [Bool.false_eq_true,if_false,Option.some.injEq] at h
    subst h
    exact hs.move (by simp [inFlight]) rfl rfl (fun hnone => absurd hnone hbusy) rfl
  | true =>
    simp only [if_true,Option.some.injEq] at h
    subst h
    rw [lostAfter]
    refine ⟨?_,?_,fun hset => absurd hset (by simp [hs.unset hbusy])⟩
    · intro hlost counts hc
      apply hs.last (Bool.or_eq_false_iff.mp hlost).1 counts
      have hc' : (s.queue ++ s.unpublished.toList).getLast? = some counts := by simpa [inFlight] using hc
      rw [inFlight,List.getLast?_append,hc']
      rfl
    · intro hlost hnone _
      -- The batch held the newest snapshot, which came last in it.
      have hrest : s.queue ++ s.unpublished.toList = [] := by simpa [inFlight] using hnone
      simp only [hrest,List.isEmpty_nil,Bool.true_and,Bool.or_eq_false_iff,bne_eq_false_iff_eq] at hlost
      obtain ⟨hlost,hlast⟩ := hlost
      obtain ⟨counts,hcounts⟩ := Option.ne_none_iff_exists'.mp (fun h => hne (List.getLast?_eq_none_iff.mp h))
      refine ⟨counts,by rw [saveItems_last hlen hlast,hcounts],hs.last hlost counts ?_⟩
      rw [inFlight,hrest,List.append_nil,hcounts]

theorem Synced.setFlag (hs : Synced s lost) {ok : Bool} (hg : NewestSaved (s,lost) (.setFlag ok))
    (h : step s (.setFlag ok) = some t) : Synced t lost := by
  simp only [step,Option.ite_none_right_eq_some,Option.some.injEq] at h
  obtain ⟨hpos,rfl⟩ := h
  refine ⟨hs.last,fun hlost hnone _ => hs.idle hlost hnone (.inl hpos),?_⟩
  intro hset
  cases ok with
  | true => exact hg rfl
  | false => exact hs.flag hset

theorem Synced.next {e : Event} (hs : Synced s lost) (hg : NewestSaved (s,lost) e) (h : step s e = some t) :
    Synced t (lostAfter s lost e) := by
  cases e with
  | handleResult counts => exact synced_handleResult h
  | publish ok => exact hs.publish h
  | receive => exact hs.receive h
  | batchSave accepted ok => exact hs.batchSave h
  | setFlag ok => exact hs.setFlag hg h

theorem synced_reach {s₀ : System} (h₀ : Initial s₀) {x : System × Bool} (hx : Reach watch NewestSaved (s₀,false) x) :
    Synced x.1 x.2 := by
  apply hx.invariant (P := fun x => Synced x.1 x.2) h₀.synced
  rintro ⟨s,lost⟩ e y hs hg h
  obtain ⟨t,ht,rfl⟩ := Option.map_eq_some_iff.mp h
  exact hs.next hg ht

/-- An orderly step loses no snapshot. -/
theorem lostAfter_orderly {e : Event} (hg : Orderly s e) (h : step s e = some t) : lostAfter s false e = false := by
  cases e with
  | publish ok =>
    obtain rfl : ok = true := hg
    rfl
  | batchSave accepted ok =>
    simp only [step,Option.ite_none_right_eq_some] at h
    obtain ⟨⟨hne,hlen⟩,-⟩ := h
    cases ok with
    | false => rfl
    | true =>
      have hpos : accepted ≠ [] := by
        rintro rfl
        exact hne (List.length_eq_zero_iff.mp hlen.symm)
      have hlast := hg rfl _ (List.getLast_mem hpos)
      rw [lostAfter,List.getLast?_eq_some_getLast hpos,hlast]
      simp
  | _ => rfl

/-- Every orderly run sets the flag only when the newest snapshot is saved. -/
theorem watch_of_orderly {s₀ : System} (hs : Reach step Orderly s₀ s) : Reach watch NewestSaved (s₀,false) (s,false) := by
  induction hs with
  | start => exact .start
  | @next s t e _ hg h ih =>
    refine .next ih (l := e) ?_ ?_
    · cases e with
      | setFlag ok => exact fun hok => ⟨hg hok,rfl⟩
      | _ => trivial
    · rw [watch,h,Option.map_some,lostAfter_orderly hg h]

end Step

/-- The flag is sound in every run that sets it only when the newest snapshot is saved, so in every orderly run. -/
theorem flag_sound_while_orderly {s₀ : System} (h₀ : Initial s₀) :
    (∀ s lost, Reach watch NewestSaved (s₀,false) (s,lost) → FlagSound s) ∧
    ∀ s, Reach step Orderly s₀ s → FlagSound s := by
  have hsound : ∀ s lost, Reach watch NewestSaved (s₀,false) (s,lost) → FlagSound s :=
    fun s lost hs => (synced_reach h₀ hs).flagSound
  exact ⟨hsound,fun s hs => hsound s false (watch_of_orderly hs)⟩

section Sample

/-- A torrent without counts that is not in the index. -/
def unindexed : System := ⟨none,false,none,[],[],none,0⟩

theorem unindexed_initial : Initial unindexed := ⟨rfl,rfl,rfl⟩

/-- The first snapshot is not published, the second is rejected, and the third is accepted. -/
def indexedLast : List Event :=
  [.handleResult ⟨3,1⟩,.publish false,.handleResult ⟨4,1⟩,.publish true,.handleResult ⟨5,2⟩,.publish true,.receive,.receive,
    .batchSave [false,true] true,.setFlag true]

def indexedOnce : List Event := [.handleResult ⟨3,1⟩,.publish true,.receive,.batchSave [true] true,.setFlag true]

theorem indexedLast_sound :
    (∃ s, run watch (unindexed,false) indexedLast = some s ∧ s.1.searchUpdated = true ∧ s.1.index = some ⟨5,2⟩ ∧
      FlagSound s.1) ∧
    ∃ s, run step unindexed indexedOnce = some s ∧ s.searchUpdated = true ∧ s.index = some ⟨3,1⟩ ∧ FlagSound s := by
  obtain ⟨hlast,honce⟩ := flag_sound_while_orderly unindexed_initial
  exact ⟨⟨_,rfl,rfl,rfl,hlast _ _ (.of_guarded indexedLast rfl (by decide))⟩,
    ⟨_,rfl,rfl,rfl,honce _ (.of_guarded indexedOnce rfl (by decide))⟩⟩

/-- The flag is set over newer counts, over an item that was rejected, and over a snapshot that was
not published. -/
theorem flag_set_unsoundly :
    (∃ s, run step unindexed [.handleResult ⟨3,1⟩,.publish true,.receive,.batchSave [true] true,
      .handleResult ⟨5,2⟩,.publish true,.setFlag true] = some s ∧ ¬ FlagSound s) ∧
    (∃ s, run step unindexed [.handleResult ⟨3,1⟩,.publish true,.receive,.batchSave [false] true,
      .setFlag true] = some s ∧ ¬ FlagSound s) ∧
    (∃ s, run step unindexed [.handleResult ⟨3,1⟩,.publish true,.handleResult ⟨5,2⟩,.publish false,.receive,
      .batchSave [true] true,.setFlag true] = some s ∧ ¬ FlagSound s) := by
  refine ⟨⟨_,rfl,?_⟩,⟨_,rfl,?_⟩,⟨_,rfl,?_⟩⟩
  · intro h
    obtain ⟨counts,hindex,hcounts⟩ := h rfl
    cases hindex
    exact absurd hcounts (by decide)
  · intro h
    obtain ⟨counts,hindex,-⟩ := h rfl
    cases hindex
  · intro h
    obtain ⟨counts,hindex,hcounts⟩ := h rfl
    cases hindex
    exact absurd hcounts (by decide)

end Sample

end DhtOcean.SearchFlag
