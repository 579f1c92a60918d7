import Mathlib.Data.List.AList
import DhtOcean.Foundation.Transition

/-! # The least-recently-written cache

A bounded channel of tokens accompanies the map, one token for each entry as far
as the operations keep the two together. Every entry has a timer whose callback
deletes its key; a callback that has started waits for the mutex and can no
longer be stopped. A channel operation that would block forever is `none`.
-/
namespace DhtOcean.Cache
open Foundation

structure CacheEntry (V : Type) where
  timer : ℕ
  value : V
  deriving DecidableEq, Repr

structure Timer (K : Type) where
  id : ℕ
  key : K
  due : ℕ
  deriving DecidableEq, Repr

/-- `timers` are armed, `expired` are the keys of the callbacks that wait for the mutex. -/
structure LRWCache (K V : Type) where
  ttl : ℕ
  maxSize : ℕ
  blocking : Bool
  tokens : List K
  data : AList (fun _ : K => CacheEntry V)
  clock : ℕ
  nextTimer : ℕ
  timers : List (Timer K)
  expired : List K

namespace LRWCache
variable {K V : Type}

def newLRWCache (ttl maxSize : ℕ) (blocking : Bool) : LRWCache K V where
  ttl := ttl
  maxSize := maxSize
  blocking := blocking
  tokens := []
  data := ∅
  clock := 0
  nextTimer := 0
  timers := []
  expired := []

/-- The keys of the cache with their values. -/
def contents (c : LRWCache K V) : List (K × V) := c.data.entries.map (fun e => (e.1,e.2.value))

/-- `<-c.tokens` -/
def receiveToken (c : LRWCache K V) : Option (K × LRWCache K V) :=
  match c.tokens with
  | [] => none
  | key :: tokens => some (key,{ c with tokens := tokens })

/-- `c.tokens <- key` -/
def sendToken (c : LRWCache K V) (key : K) : Option (LRWCache K V) :=
  if c.tokens.length < c.maxSize then some { c with tokens := c.tokens ++ [key] } else none

variable [DecidableEq K]

def get (c : LRWCache K V) (key : K) : Option V := (c.data.lookup key).map CacheEntry.value

/-- Runs under the mutex, so a blocked receive is never woken by another operation. -/
def delete (c : LRWCache K V) (key : K) : Option (LRWCache K V) :=
  match c.data.lookup key with
  | none => some c
  | some entry => do
    let stopped := { c with timers := c.timers.filter (·.id ≠ entry.timer), data := c.data.erase key }
    let (_,c') ← stopped.receiveToken
    return c'

def getAndRemove (c : LRWCache K V) (key : K) : Option (Option V × LRWCache K V) := do
  let c' ← c.delete key
  return (c.get key,c')

/-- A write without blocking evicts at capacity. -/
def evicts (c : LRWCache K V) : Bool := !c.blocking && c.tokens.length == c.maxSize

def makeRoom (c : LRWCache K V) : Option (LRWCache K V) :=
  if c.evicts then do
    let (key,c') ← c.receiveToken
    c'.delete key
  else some c

/-- The entry replaces an older one of its key without stopping its timer. -/
def store (c : LRWCache K V) (key : K) (value : V) : LRWCache K V :=
  { c with
    data := c.data.insert key ⟨c.nextTimer,value⟩
    timers := c.timers ++ [⟨c.nextTimer,key,c.clock + c.ttl⟩]
    nextTimer := c.nextTimer + 1 }

def set (c : LRWCache K V) (key : K) (value : V) : Option (LRWCache K V) := do
  let c ← c.makeRoom
  let c ← c.sendToken key
  return c.store key value

end LRWCache

inductive Op (K V : Type)
  | set (key : K) (value : V)
  | get (key : K)
  | getAndRemove (key : K)
  | delete (key : K)
  /-- A second passes. -/
  | tick
  /-- A due timer starts its callback. -/
  | fire (id : ℕ)
  /-- A callback for the key gets the mutex. -/
  | expire (key : K)
  deriving DecidableEq, Repr

variable {K V : Type} [DecidableEq K]

def step (c : LRWCache K V) : Op K V → Option (LRWCache K V)
  | .set key value => c.set key value
  | .get _ => some c
  | .getAndRemove key => (c.getAndRemove key).map Prod.snd
  | .delete key => c.delete key
  | .tick => some { c with clock := c.clock + 1 }
  | .fire id => do
    let t ← c.timers.find? (fun t => t.id == id && decide (t.due ≤ c.clock))
    return { c with timers := c.timers.filter (·.id ≠ id), expired := c.expired ++ [t.key] }
  | .expire key => if key ∈ c.expired then { c with expired := c.expired.erase key }.delete key else none

namespace LRWCache
variable {c c' : LRWCache K V} {key : K}

/-- What a completed deletion has done. -/
theorem delete_cases (h : c.delete key = some c') :
    (key ∉ c.data ∧ c' = c) ∨
    ∃ k tokens timers, key ∈ c.data ∧ c.tokens = k :: tokens ∧
      c' = { c with timers := timers, data := c.data.erase key, tokens := tokens } := by
  unfold delete at h
  cases hl : c.data.lookup key with
  | none =>
    simp only [hl,Option.some.injEq] at h
    exact .inl ⟨AList.lookup_eq_none.mp hl,h.symm⟩
  | some entry =>
    have hmem : key ∈ c.data := AList.lookup_isSome.mp (by simp [hl])
    cases ht : c.tokens with
    | nil => simp [hl,receiveToken,ht] at h
    | cons k tokens =>
      simp only [hl,receiveToken,ht,Option.bind_eq_bind,Option.bind_some,Option.pure_def,
        Option.some.injEq] at h
      exact .inr ⟨k,tokens,_,hmem,rfl,h.symm⟩

theorem delete_absent (h : key ∉ c.data) : c.delete key = some c := by
  simp [delete,AList.lookup_eq_none.mpr h]

/-- The receive of a deletion is the only thing that can block it. -/
theorem delete_present {k : K} {tokens : List K} (h : key ∈ c.data) (ht : c.tokens = k :: tokens) :
    ∃ timers, c.delete key = some { c with timers := timers, data := c.data.erase key, tokens := tokens } := by
  obtain ⟨entry,hl⟩ := Option.isSome_iff_exists.mp (AList.lookup_isSome.mpr h)
  exact ⟨_,by simp [delete,hl,receiveToken,ht]; rfl⟩

theorem delete_blocked_iff : c.delete key = none ↔ key ∈ c.data ∧ c.tokens = [] := by
  constructor
  · intro h
    by_cases hmem : key ∈ c.data
    · cases ht : c.tokens with
      | nil => exact ⟨hmem,rfl⟩
      | cons k tokens =>
        obtain ⟨timers,hd⟩ := delete_present hmem ht
        rw [h] at hd
        cases hd
    · rw [delete_absent hmem] at h
      cases h
  · rintro ⟨hmem,ht⟩
    obtain ⟨entry,hl⟩ := Option.isSome_iff_exists.mp (AList.lookup_isSome.mpr hmem)
    simp [delete,hl,receiveToken,ht]

/-- A write ends once there is room for its token. -/
theorem set_of_makeRoom {value : V} (h : c.makeRoom = some c') (hlt : c'.tokens.length < c'.maxSize) :
    c.set key value = some ({ c' with tokens := c'.tokens ++ [key] }.store key value) := by
  simp [set,h,sendToken,hlt]

theorem set_below {value : V} (h : c.tokens.length < c.maxSize) :
    c.set key value = some ({ c with tokens := c.tokens ++ [key] }.store key value) := by
  have he : c.evicts = false := by simp [evicts,Nat.ne_of_lt h]
  exact set_of_makeRoom (by simp [makeRoom,he]) h

theorem makeRoom_full {tokens : List K} (he : c.evicts = true) (ht : c.tokens = key :: tokens) :
    c.makeRoom = { c with tokens := tokens }.delete key := by
  simp [makeRoom,he,receiveToken,ht]

/-- Equal in everything but timers and callbacks. -/
def SameContents (c d : LRWCache K V) : Prop :=
  d.tokens = c.tokens ∧ d.data = c.data ∧ d.maxSize = c.maxSize ∧ d.blocking = c.blocking

theorem length_keys_erase (h : key ∈ c.data) : (c.data.erase key).keys.length + 1 = c.data.keys.length := by
  rw [AList.keys_erase]
  have := List.length_erase_add_one (AList.mem_keys.mp h)
  exact this

theorem length_keys_insert {entry : CacheEntry V} (h : key ∉ c.data) :
    (c.data.insert key entry).keys.length = c.data.keys.length + 1 := by
  rw [AList.keys_insert,List.erase_of_not_mem (fun hk => h (AList.mem_keys.mpr hk)),List.length_cons]

omit [DecidableEq K] in
theorem keys_contents (c : LRWCache K V) : c.contents.map Prod.fst = c.data.keys := by
  simp [contents,AList.keys,List.keys,Function.comp_def]

theorem contents_store (value : V) (h : key ∉ c.data) :
    (c.store key value).contents = (key,value) :: c.contents := by
  rw [contents,store,AList.entries_insert_of_notMem h,List.map_cons]
  rfl

/-- A step writes, deletes, or leaves the contents alone. -/
theorem step_cases {op : Op K V} (h : step c op = some c') :
    (∃ key value, op = .set key value ∧ c.set key value = some c') ∨
    (∃ key d, SameContents c d ∧ d.delete key = some c') ∨ SameContents c c' := by
  cases op with
  | set key value => exact .inl ⟨key,value,rfl,h⟩
  | getAndRemove key =>
    simp only [step,getAndRemove,Option.map_eq_some_iff,Option.bind_eq_bind,Option.bind_eq_some_iff] at h
    obtain ⟨_,⟨d,hd,hr⟩,rfl⟩ := h
    cases hr
    exact .inr (.inl ⟨key,c,⟨rfl,rfl,rfl,rfl⟩,hd⟩)
  | delete key => exact .inr (.inl ⟨key,c,⟨rfl,rfl,rfl,rfl⟩,h⟩)
  | fire id =>
    simp only [step,Option.bind_eq_bind,Option.bind_eq_some_iff] at h
    obtain ⟨t,-,hr⟩ := h
    cases hr
    exact .inr (.inr ⟨rfl,rfl,rfl,rfl⟩)
  | expire key =>
    simp only [step] at h
    split at h
    · exact .inr (.inl ⟨key,{ c with expired := c.expired.erase key },⟨rfl,rfl,rfl,rfl⟩,h⟩)
    · cases h
  | get key =>
    cases h
    exact .inr (.inr ⟨rfl,rfl,rfl,rfl⟩)
  | tick =>
    cases h
    exact .inr (.inr ⟨rfl,rfl,rfl,rfl⟩)

end LRWCache

end DhtOcean.Cache
