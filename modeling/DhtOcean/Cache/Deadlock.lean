import DhtOcean.Cache.Lrw

/-! # Where the cache without blocking can deadlock

Below capacity every operation keeps as many tokens as entries, so a deletion
always finds the token it receives. An eviction takes one token itself and lets
the deletion take another, so it always leaves the tokens one short; from then on
deleting what is present ends in a receive that nothing can answer.
-/
namespace DhtOcean.Cache
open Foundation LRWCache
variable {K V : Type} [DecidableEq K]

/-- The state and key with which an operation enters `delete`. -/
def entersDelete (c : LRWCache K V) : Op K V → Option (LRWCache K V × K)
  | .set _ _ => if c.evicts then c.receiveToken.map Prod.swap else none
  | .getAndRemove key => some (c,key)
  | .delete key => some (c,key)
  | .expire key => if key ∈ c.expired then some ({ c with expired := c.expired.erase key },key) else none
  | .get _ => none
  | .tick => none
  | .fire _ => none

/-- The operation deletes a key that is present while no token is left to receive. -/
def Deadlocks (c : LRWCache K V) (op : Op K V) : Prop :=
  ∃ d key, entersDelete c op = some (d,key) ∧ key ∈ d.data ∧ d.tokens = []

/-- Keys are written only when absent. -/
def WritesAbsent (c : LRWCache K V) : Op K V → Prop
  | .set key _ => key ∉ c.data
  | _ => True

/-- Besides, a write finds a free slot in the token channel. -/
def WritesBelowCapacity (c : LRWCache K V) (op : Op K V) : Prop :=
  WritesAbsent c op ∧ ∀ key value, op = .set key value → c.tokens.length < c.maxSize

/-- Whoever enters `delete` without an eviction finds the contents as they are. -/
theorem entersDelete_same {c d : LRWCache K V} {op : Op K V} {key : K} (he : entersDelete c op = some (d,key))
    (hroom : ∀ k value, op = .set k value → c.evicts = false) : d.data = c.data ∧ d.tokens = c.tokens := by
  cases op with
  | set k value => simp [entersDelete,hroom k value rfl] at he
  | expire k =>
    simp only [entersDelete] at he
    split at he
    · cases he
      exact ⟨rfl,rfl⟩
    · cases he
  | getAndRemove k =>
    cases he
    exact ⟨rfl,rfl⟩
  | delete k =>
    cases he
    exact ⟨rfl,rfl⟩
  | get k => cases he
  | tick => cases he
  | fire id => cases he

/-- A cache without blocking that holds one token for each entry. -/
structure Balanced (maxSize : ℕ) (c : LRWCache K V) : Prop where
  size : c.maxSize = maxSize
  mode : c.blocking = false
  room : c.tokens.length ≤ maxSize
  count : c.tokens.length = c.data.keys.length

namespace Balanced
variable {maxSize : ℕ} {c c' : LRWCache K V} {key : K}

omit [DecidableEq K] in
theorem sameContents (hc : Balanced maxSize c) (h : SameContents c c') : Balanced maxSize c' := by
  obtain ⟨ht,hd,hm,hb⟩ := h
  exact ⟨hm.trans hc.size,hb.trans hc.mode,ht ▸ hc.room,by rw [ht,hd,hc.count]⟩

theorem delete (hc : Balanced maxSize c) (h : c.delete key = some c') : Balanced maxSize c' := by
  rcases delete_cases h with ⟨-,rfl⟩ | ⟨k,tokens,timers,hmem,ht,rfl⟩
  · exact hc
  · have hl := length_keys_erase hmem
    have hn := hc.count
    have hr := hc.room
    rw [ht,List.length_cons] at hn hr
    exact ⟨hc.size,hc.mode,by dsimp only; omega,by dsimp only; omega⟩

theorem set_below (hc : Balanced maxSize c) (hkey : key ∉ c.data) (hlt : c.tokens.length < c.maxSize) {value : V}
    (h : c.set key value = some c') : Balanced maxSize c' := by
  rw [LRWCache.set_below hlt] at h
  cases h
  rw [hc.size] at hlt
  refine ⟨hc.size,hc.mode,?_,?_⟩
  · simp only [store,List.length_append,List.length_singleton]
    omega
  · simp only [store,List.length_append,List.length_singleton,length_keys_insert hkey,hc.count]

/-- Below capacity a step keeps as many tokens as entries. -/
theorem step {op : Op K V} (hc : Balanced maxSize c) (hg : WritesBelowCapacity c op)
    (h : step c op = some c') : Balanced maxSize c' := by
  rcases step_cases h with ⟨key,value,rfl,hs⟩ | ⟨key,d,hd,hdel⟩ | hs
  · exact hc.set_below hg.1 (hg.2 key value rfl) hs
  · exact (hc.sameContents hd).delete hdel
  · exact hc.sameContents hs

theorem tokens_ne_nil (hc : Balanced maxSize c) (hmem : key ∈ c.data) : c.tokens ≠ [] := by
  intro ht
  have hl := length_keys_erase hmem
  have hn := hc.count
  rw [ht,List.length_nil] at hn
  omega

theorem not_deadlocks {op : Op K V} (hc : Balanced maxSize c) (hg : WritesBelowCapacity c op) :
    ¬ Deadlocks c op := by
  rintro ⟨d,key,he,hmem,ht⟩
  obtain ⟨hd,hd'⟩ := entersDelete_same he (by
    intro k value hop
    simp [evicts,Nat.ne_of_lt (hg.2 k value hop)])
  exact hc.tokens_ne_nil (hd ▸ hmem) (hd'.symm.trans ht)

/-- The eviction of a full cache blocks at once or leaves the tokens one short. -/
theorem set_at_capacity (value : V) (hc : Balanced maxSize c) (hpos : 0 < c.tokens.length)
    (hfull : c.tokens.length = c.maxSize) (hkey : key ∉ c.data) :
    Deadlocks c (.set key value) ∨
    ∃ c', c.set key value = some c' ∧ c'.tokens.length < c'.data.keys.length := by
  obtain ⟨oldest,tokens,ht⟩ := List.exists_cons_of_length_pos hpos
  have he : c.evicts = true := by simp [evicts,hc.mode,hfull]
  have hroom := makeRoom_full he ht
  have hlen : c.tokens.length = tokens.length + 1 := by rw [ht,List.length_cons]
  have hn := hc.count
  by_cases hmem : oldest ∈ c.data
  · cases tokens with
    | nil =>
      refine .inl ⟨{ c with tokens := [] },oldest,?_,hmem,rfl⟩
      simp [entersDelete,he,receiveToken,ht]
    | cons k rest =>
      -- The deletion of the oldest key receives a second token.
      obtain ⟨timers,hd⟩ := delete_present (c := { c with tokens := k :: rest }) hmem rfl
      have hl := length_keys_erase hmem
      have hk : key ∉ c.data.erase oldest := fun h => hkey (AList.mem_erase.mp h).2
      rw [List.length_cons] at hlen
      refine .inr ⟨_,set_of_makeRoom (hroom.trans hd) (by dsimp only; omega),?_⟩
      have hi := @length_keys_insert _ _ _ { c with data := c.data.erase oldest } key ⟨c.nextTimer,value⟩ hk
      simp only [store,List.length_append,List.length_singleton,hi]
      omega
  · -- The oldest key is gone already, but its token was received all the same.
    have hd := delete_absent (c := { c with tokens := tokens }) hmem
    refine .inr ⟨_,set_of_makeRoom (hroom.trans hd) (by dsimp only; omega),?_⟩
    simp only [store,List.length_append,List.length_singleton,length_keys_insert hkey]
    omega

end Balanced

/-- With fewer tokens than entries, deleting what is present runs into an empty channel. -/
theorem deadlock_of_short {c : LRWCache K V} (hc : c.tokens.length < c.data.keys.length) :
    ∃ d op, Reach step WritesAbsent c d ∧ WritesAbsent d op ∧ Deadlocks d op := by
  induction hn : c.tokens.length generalizing c with
  | zero =>
    obtain ⟨key,hkey⟩ := List.exists_mem_of_length_pos (l := c.data.keys) (by omega)
    exact ⟨c,.delete key,.start,trivial,c,key,rfl,AList.mem_keys.mpr hkey,List.length_eq_zero_iff.mp hn⟩
  | succ n ih =>
    obtain ⟨key,hkey⟩ := List.exists_mem_of_length_pos (l := c.data.keys) (by omega)
    obtain ⟨k,tokens,ht⟩ := List.exists_cons_of_length_eq_add_one hn
    obtain ⟨timers,hd⟩ := delete_present (AList.mem_keys.mpr hkey) ht
    have hl := length_keys_erase (AList.mem_keys.mpr hkey)
    rw [ht,List.length_cons] at hn hc
    obtain ⟨d,op,hr,hw,hdead⟩ := ih
      (c := { c with timers := timers, data := c.data.erase key, tokens := tokens }) (by dsimp only; omega)
      (by dsimp only; omega)
    exact ⟨d,op,(Reach.next (l := .delete key) .start trivial hd).trans hr,hw,hdead⟩

/-- While every write finds a free slot, no operation deadlocks; and a write that finds
none opens a run that does. -/
theorem deadlock_free_below_capacity {ttl maxSize : ℕ} (hmax : 1 ≤ maxSize) {c : LRWCache K V}
    (hc : Reach step WritesBelowCapacity (newLRWCache ttl maxSize false) c) :
    (∀ op, WritesBelowCapacity c op → ¬ Deadlocks c op) ∧
    (∀ op, WritesAbsent c op → ¬ WritesBelowCapacity c op → Deadlocks c op ∨
      ∃ c', step c op = some c' ∧ ∃ d op', Reach step WritesAbsent c' d ∧ WritesAbsent d op' ∧ Deadlocks d op') := by
  have hb : Balanced maxSize c :=
    hc.invariant ⟨rfl,rfl,Nat.zero_le _,rfl⟩ (fun hs hg h => hs.step hg h)
  refine ⟨fun op hg => hb.not_deadlocks hg,?_⟩
  intro op hw hfull
  cases op with
  | set key value =>
    have hlen : c.tokens.length = c.maxSize := by
      have hr := hb.room
      have hge : ¬ c.tokens.length < c.maxSize := fun hlt => hfull ⟨hw,fun _ _ _ => hlt⟩
      have hsize := hb.size
      omega
    have hpos : 0 < c.tokens.length := by rw [hlen,hb.size]; exact hmax
    rcases hb.set_at_capacity value hpos hlen hw with hd | ⟨c',hs,hshort⟩
    · exact .inl hd
    · exact .inr ⟨c',hs,deadlock_of_short hshort⟩
  | _ => exact absurd ⟨trivial,fun _ _ h => by cases h⟩ hfull

/-- The cache of one entry after its first write. -/
def oneWritten : LRWCache ℕ Unit := { newLRWCache 5 1 false with tokens := [1] }.store 1 ()

/-- Deleting the only entry is safe; a second write evicts it and waits for a token. -/
theorem oneWritten_delete_safe :
    ¬ Deadlocks oneWritten (.delete 1) ∧
    (Deadlocks oneWritten (.set 2 ()) ∨ ∃ c', step oneWritten (.set 2 ()) = some c' ∧
      ∃ d op, Reach step WritesAbsent c' d ∧ WritesAbsent d op ∧ Deadlocks d op) := by
  have hreach : Reach step WritesBelowCapacity (newLRWCache 5 1 false) oneWritten :=
    .next (l := .set 1 ()) .start ⟨AList.notMem_empty 1,fun _ _ _ => by decide⟩ rfl
  obtain ⟨hsafe,hfull⟩ := deadlock_free_below_capacity (Nat.le_refl 1) hreach
  have habsent : WritesAbsent oneWritten (.set 2 ()) := by
    change 2 ∉ oneWritten.data
    decide
  refine ⟨hsafe _ ⟨trivial,fun _ _ h => by cases h⟩,hfull _ habsent ?_⟩
  intro h
  exact absurd (h.2 2 () rfl) (by decide)

theorem second_write_deadlocks :
    Reach step WritesAbsent (newLRWCache 5 1 false) oneWritten ∧
      WritesAbsent oneWritten (.set 2 ()) ∧ Deadlocks oneWritten (.set 2 ()) ∧
      step oneWritten (.set 2 ()) = none := by
  refine ⟨.next (l := .set 1 ()) .start (AList.notMem_empty 1) rfl,?_,⟨_,1,rfl,by decide,rfl⟩,rfl⟩
  change 2 ∉ oneWritten.data
  decide

end DhtOcean.Cache
