import Mathlib.Data.List.Perm.Basic
import DhtOcean.Cache.Deadlock

/-! # Capacity of the blocking cache

A write sends its token before it takes the mutex, so between these two steps the
token belongs to no entry yet. Entries and writes under way together have one
token each, whoever else reads, deletes or expires in between.
-/
namespace DhtOcean.Cache
open Foundation LRWCache
variable {K V : Type}

/-- A cache with the writes that have sent their token and wait for the mutex. -/
structure Shared (K V : Type) where
  cache : LRWCache K V
  inFlight : List (K × V)

def newShared (ttl maxSize : ℕ) : Shared K V := ⟨newLRWCache ttl maxSize true,[]⟩

inductive Turn (K V : Type)
  /-- A write sends its token; every other operation is carried out. -/
  | start (op : Op K V)
  /-- The write at this place gets the mutex and inserts its entry. -/
  | insert (i : ℕ)
  deriving DecidableEq

theorem perm_cons_eraseIdx {A : Type} {l : List A} {i : ℕ} {a : A} (h : l[i]? = some a) :
    l.Perm (a :: l.eraseIdx i) := by
  obtain ⟨hlt,rfl⟩ := List.getElem?_eq_some_iff.mp h
  exact (List.getElem_cons_eraseIdx_perm hlt).symm

namespace Shared

/-- The entries and the writes under way. -/
def pending (s : Shared K V) : List (K × V) := s.cache.contents ++ s.inFlight

theorem pending_congr {s s' : Shared K V} (hd : s'.cache.data = s.cache.data) (hi : s'.inFlight = s.inFlight) :
    s'.pending = s.pending := by
  rw [pending,pending,contents,contents,hd,hi]

variable [DecidableEq K]

def push (s : Shared K V) (key : K) (value : V) : Option (Shared K V) := do
  let c ← s.cache.makeRoom
  let c ← c.sendToken key
  return ⟨c,s.inFlight ++ [(key,value)]⟩

def insert (s : Shared K V) (i : ℕ) : Option (Shared K V) := do
  let (key,value) ← s.inFlight[i]?
  return ⟨s.cache.store key value,s.inFlight.eraseIdx i⟩

def turn (s : Shared K V) : Turn K V → Option (Shared K V)
  | .start (.set key value) => s.push key value
  | .start op => (step s.cache op).map (⟨·,s.inFlight⟩)
  | .insert i => s.insert i

end Shared

/-- No write is for a key that has an entry or another write under way. -/
def WritesFresh (s : Shared K V) : Turn K V → Prop
  | .start (.set key _) => key ∉ s.pending.map Prod.fst
  | _ => True

instance decidableWritesFresh [DecidableEq K] (s : Shared K V) : ∀ t, Decidable (WritesFresh s t)
  | .start (.set key _) => inferInstanceAs (Decidable (key ∉ s.pending.map Prod.fst))
  | .start (.get _) => isTrue trivial
  | .start (.getAndRemove _) => isTrue trivial
  | .start (.delete _) => isTrue trivial
  | .start .tick => isTrue trivial
  | .start (.fire _) => isTrue trivial
  | .start (.expire _) => isTrue trivial
  | .insert _ => isTrue trivial

namespace Shared
variable [DecidableEq K] {s s' : Shared K V}

omit [DecidableEq K] in
theorem keys_pending (s : Shared K V) :
    s.pending.map Prod.fst = s.cache.data.keys ++ s.inFlight.map Prod.fst := by
  rw [pending,List.map_append,keys_contents]

omit [DecidableEq K] in
theorem length_pending (s : Shared K V) : s.pending.length = s.cache.data.keys.length + s.inFlight.length := by
  rw [pending,List.length_append,← keys_contents,List.length_map]

omit [DecidableEq K] in
theorem pending_push (s : Shared K V) (key : K) (value : V) :
    (⟨{ s.cache with tokens := s.cache.tokens ++ [key] },s.inFlight ++ [(key,value)]⟩ : Shared K V).pending =
      s.pending ++ [(key,value)] := by
  simp [pending,contents]

theorem mem_pending_of_get {key : K} {value : V} (h : s.cache.get key = some value) : (key,value) ∈ s.pending := by
  obtain ⟨entry,hentry,rfl⟩ := Option.map_eq_some_iff.mp h
  apply List.mem_append_left
  exact List.mem_map.mpr ⟨⟨key,entry⟩,AList.mem_lookup_iff.mp hentry,rfl⟩

/-- A deletion takes nothing but the entry of its key. -/
theorem pending_delete {key : K} {c : LRWCache K V} (h : s.cache.delete key = some c) :
    (⟨c,s.inFlight⟩ : Shared K V).pending.Sublist s.pending := by
  rcases delete_cases h with ⟨-,rfl⟩ | ⟨k,tokens,timers,hmem,ht,rfl⟩
  · exact List.Sublist.refl _
  · exact ((List.kerase_sublist key s.cache.data.entries).map _).append_right _

/-- An entry that is deleted was the only thing pending for its key. -/
theorem keys_delete {key : K} {c : LRWCache K V} (h : s.cache.delete key = some c) (hkey : key ∈ s.cache.data) :
    (s.pending.map Prod.fst).Perm (key :: (⟨c,s.inFlight⟩ : Shared K V).pending.map Prod.fst) := by
  rcases delete_cases h with ⟨habsent,-⟩ | ⟨k,tokens,timers,hmem,ht,rfl⟩
  · exact absurd hkey habsent
  · rw [keys_pending,keys_pending,AList.keys_erase]
    exact (List.perm_cons_erase (AList.mem_keys.mp hkey)).append_right _

/-- A write that gets the mutex becomes an entry. -/
theorem pending_insert {key : K} {value : V} {rest : List (K × V)}
    (h : s.inFlight.Perm ((key,value) :: rest)) (hkey : key ∉ s.cache.data) :
    (⟨s.cache.store key value,rest⟩ : Shared K V).pending.Perm s.pending := by
  rw [pending,contents_store value hkey,List.cons_append]
  exact List.perm_middle.symm.trans (h.symm.append_left _)

theorem push_blocking {key : K} {value : V} (hb : s.cache.blocking = true) :
    s.push key value = if s.cache.tokens.length < s.cache.maxSize then
      some ⟨{ s.cache with tokens := s.cache.tokens ++ [key] },s.inFlight ++ [(key,value)]⟩ else none := by
  have hroom : s.cache.makeRoom = some s.cache := by simp [makeRoom,evicts,hb]
  simp only [push,hroom,sendToken,Option.bind_eq_bind,Option.bind_some]
  split <;> rfl

theorem insert_cases {i : ℕ} (h : s.insert i = some s') :
    ∃ key value rest, s.inFlight.Perm ((key,value) :: rest) ∧ s' = ⟨s.cache.store key value,rest⟩ := by
  simp only [insert,Option.bind_eq_bind,Option.bind_eq_some_iff] at h
  obtain ⟨⟨key,value⟩,hi,h⟩ := h
  exact ⟨key,value,_,perm_cons_eraseIdx hi,(Option.some.inj h).symm⟩

/-- A turn of a blocking cache sends a token, inserts an entry, deletes one or leaves the contents
alone. -/
theorem turn_cases {t : Turn K V} (hb : s.cache.blocking = true) (h : s.turn t = some s') :
    (∃ key value, t = .start (.set key value) ∧ s.cache.tokens.length < s.cache.maxSize ∧
      s' = ⟨{ s.cache with tokens := s.cache.tokens ++ [key] },s.inFlight ++ [(key,value)]⟩) ∨
    (∃ key value rest, s.inFlight.Perm ((key,value) :: rest) ∧ s' = ⟨s.cache.store key value,rest⟩) ∨
    ((∃ key d, SameContents s.cache d ∧ d.delete key = some s'.cache) ∧ s'.inFlight = s.inFlight) ∨
    (SameContents s.cache s'.cache ∧ s'.inFlight = s.inFlight) := by
  cases t with
  | insert i => exact .inr (.inl (insert_cases h))
  | start op =>
    by_cases hset : ∃ key value, op = .set key value
    · obtain ⟨key,value,rfl⟩ := hset
      rw [turn,push_blocking hb,Option.ite_none_right_eq_some,Option.some.injEq] at h
      exact .inl ⟨key,value,rfl,h.1,h.2.symm⟩
    · have hturn : s.turn (.start op) = (step s.cache op).map (⟨·,s.inFlight⟩) := by
        cases op with
        | set key value => exact absurd ⟨key,value,rfl⟩ hset
        | _ => rfl
      rw [hturn,Option.map_eq_some_iff] at h
      obtain ⟨c,hc,rfl⟩ := h
      rcases step_cases hc with ⟨key,value,rfl,-⟩ | hdel | hsame
      · exact absurd ⟨key,value,rfl⟩ hset
      · exact .inr (.inr (.inl ⟨hdel,rfl⟩))
      · exact .inr (.inr (.inr ⟨hsame,rfl⟩))

end Shared

/-- A blocking cache with one token for each entry and each write under way. -/
structure Metered (maxSize : ℕ) (s : Shared K V) : Prop where
  size : s.cache.maxSize = maxSize
  mode : s.cache.blocking = true
  room : s.cache.tokens.length ≤ maxSize
  count : s.cache.tokens.length = s.pending.length
  distinct : (s.pending.map Prod.fst).Nodup

namespace Metered
variable [DecidableEq K] {maxSize : ℕ} {s s' : Shared K V}

omit [DecidableEq K] in
theorem sameContents (hs : Metered maxSize s) {c : LRWCache K V} (h : SameContents s.cache c) :
    Metered maxSize ⟨c,s.inFlight⟩ := by
  obtain ⟨ht,hd,hm,hb⟩ := h
  have hp : (⟨c,s.inFlight⟩ : Shared K V).pending = s.pending := Shared.pending_congr hd rfl
  exact ⟨hm.trans hs.size,hb.trans hs.mode,ht ▸ hs.room,by rw [hp,← hs.count,ht],hp ▸ hs.distinct⟩

theorem delete (hs : Metered maxSize s) {key : K} {c : LRWCache K V} (h : s.cache.delete key = some c) :
    Metered maxSize ⟨c,s.inFlight⟩ := by
  have hd := hs.distinct.sublist ((Shared.pending_delete h).map Prod.fst)
  rcases delete_cases h with ⟨-,rfl⟩ | ⟨k,tokens,timers,hmem,ht,rfl⟩
  · exact hs
  · have hl := length_keys_erase hmem
    have hn := hs.count
    have hr := hs.room
    rw [ht,List.length_cons] at hn hr
    rw [Shared.length_pending] at hn
    refine ⟨hs.size,hs.mode,by dsimp only; omega,?_,hd⟩
    rw [Shared.length_pending]
    dsimp only
    omega

omit [DecidableEq K] in
theorem push (hs : Metered maxSize s) {key : K} (value : V) (hkey : key ∉ s.pending.map Prod.fst)
    (hlt : s.cache.tokens.length < s.cache.maxSize) :
    Metered maxSize ⟨{ s.cache with tokens := s.cache.tokens ++ [key] },s.inFlight ++ [(key,value)]⟩ := by
  have hp := Shared.pending_push s key value
  refine ⟨hs.size,hs.mode,?_,?_,?_⟩
  · rw [hs.size] at hlt
    rw [List.length_append,List.length_singleton]
    exact hlt
  · rw [hp,List.length_append,List.length_append,hs.count]
    rfl
  · rw [hp,List.map_append,List.map_singleton]
    refine List.nodup_append.mpr ⟨hs.distinct,List.nodup_singleton _,?_⟩
    intro a ha b hb hab
    have hb : b = key := List.mem_singleton.mp hb
    exact hkey (hb ▸ hab ▸ ha)

omit [DecidableEq K] in
/-- A key with a write under way has no entry. -/
theorem notMem_data (hs : Metered maxSize s) {p : K × V} (hp : p ∈ s.inFlight) : p.1 ∉ s.cache.data := by
  intro hmem
  have hd := hs.distinct
  rw [Shared.keys_pending] at hd
  exact (List.nodup_append.mp hd).2.2 p.1 (AList.mem_keys.mp hmem) p.1 (List.mem_map_of_mem hp) rfl

theorem insert (hs : Metered maxSize s) {key : K} {value : V} {rest : List (K × V)}
    (h : s.inFlight.Perm ((key,value) :: rest)) : Metered maxSize ⟨s.cache.store key value,rest⟩ := by
  have hkey : key ∉ s.cache.data := hs.notMem_data (h.mem_iff.mpr List.mem_cons_self)
  have hp := Shared.pending_insert h hkey
  refine ⟨hs.size,hs.mode,hs.room,hs.count.trans hp.length_eq.symm,?_⟩
  exact (hp.map Prod.fst).nodup_iff.mpr hs.distinct

/-- Every turn keeps one token for each entry and each write under way. -/
theorem turn {t : Turn K V} (hs : Metered maxSize s) (hg : WritesFresh s t) (h : s.turn t = some s') :
    Metered maxSize s' := by
  rcases Shared.turn_cases hs.mode h with ⟨key,value,rfl,hlt,rfl⟩ | ⟨key,value,rest,hi,rfl⟩ |
    ⟨⟨key,d,hd,hdel⟩,hi⟩ | ⟨hsame,hi⟩
  · exact hs.push value hg hlt
  · exact hs.insert hi
  · have := (hs.sameContents hd).delete hdel
    rwa [← hi] at this
  · have := hs.sameContents hsame
    rwa [← hi] at this

/-- Turns other than writes add nothing to what is pending. -/
theorem pending_turn {t : Turn K V} (hs : Metered maxSize s) (hset : ∀ key value, t ≠ .start (.set key value))
    (h : s.turn t = some s') : s'.pending.Subperm s.pending := by
  rcases Shared.turn_cases hs.mode h with ⟨key,value,ht,-,-⟩ | ⟨key,value,rest,hi,rfl⟩ |
    ⟨⟨key,d,hd,hdel⟩,hi⟩ | ⟨hsame,hi⟩
  · exact absurd ht (hset key value)
  · exact (Shared.pending_insert hi (hs.notMem_data (hi.mem_iff.mpr List.mem_cons_self))).subperm
  · have hsame : (⟨d,s.inFlight⟩ : Shared K V).pending = s.pending := Shared.pending_congr hd.2.1 rfl
    have hsub := Shared.pending_delete (s := ⟨d,s.inFlight⟩) hdel
    rw [hsame,← hi] at hsub
    exact hsub.subperm
  · rw [Shared.pending_congr hsame.2.1 hi]

omit [DecidableEq K] in
theorem tokens_ne_nil (hs : Metered maxSize s) {key : K} (hmem : key ∈ s.cache.data) : s.cache.tokens ≠ [] := by
  intro ht
  have hn := hs.count
  have hpos := List.length_pos_of_mem (AList.mem_keys.mp hmem)
  rw [ht,Shared.length_pending,List.length_nil] at hn
  omega

/-- Whoever enters `delete` finds a token. -/
theorem not_deadlocks (hs : Metered maxSize s) (op : Op K V) : ¬ Deadlocks s.cache op := by
  rintro ⟨d,key,he,hmem,ht⟩
  have hd := entersDelete_same he (fun _ _ _ => by simp [evicts,hs.mode])
  exact hs.tokens_ne_nil (hd.1 ▸ hmem) (hd.2.symm.trans ht)

/-- While there is room for all of them, writes of fresh keys send their tokens without blocking. -/
theorem run_push (ws : List (K × V)) (hs : Metered maxSize s)
    (hkeys : (s.pending.map Prod.fst ++ ws.map Prod.fst).Nodup) (hroom : s.cache.tokens.length + ws.length ≤ maxSize) :
    (run Shared.turn s (ws.map (fun w => .start (.set w.1 w.2)))).isSome := by
  induction ws generalizing s with
  | nil => rfl
  | cons w ws ih =>
    obtain ⟨key,value⟩ := w
    rw [List.length_cons] at hroom
    have hlt : s.cache.tokens.length < s.cache.maxSize := by
      rw [hs.size]
      omega
    have hkey : key ∉ s.pending.map Prod.fst :=
      fun hmem => (List.nodup_append.mp hkeys).2.2 key hmem key (by simp) rfl
    have hturn : s.turn (.start (.set key value)) =
        some ⟨{ s.cache with tokens := s.cache.tokens ++ [key] },s.inFlight ++ [(key,value)]⟩ := by
      rw [Shared.turn,Shared.push_blocking hs.mode,if_pos hlt]
    rw [List.map_cons,run,hturn,Option.bind_some]
    apply ih (hs.push value hkey hlt)
    · rw [Shared.pending_push]
      simpa using hkeys
    · simp only [List.length_append,List.length_singleton]
      omega

end Metered

theorem metered_newShared (ttl maxSize : ℕ) : Metered maxSize (newShared ttl maxSize : Shared K V) :=
  ⟨rfl,rfl,Nat.zero_le _,rfl,List.nodup_nil⟩

section Runs
variable [DecidableEq K]

theorem reach_metered {ttl maxSize : ℕ} {s : Shared K V}
    (hs : Reach Shared.turn WritesFresh (newShared ttl maxSize) s) : Metered maxSize s :=
  hs.invariant (P := Metered maxSize) (metered_newShared ttl maxSize) (fun hi hg h => hi.turn hg h)

/-- Between any two turns the tokens are those of the entries and of the writes under way. -/
theorem capacity_accounted (ttl maxSize : ℕ) (s : Shared K V)
    (hs : Reach Shared.turn WritesFresh (newShared ttl maxSize) s) :
    s.cache.tokens.length = s.cache.data.keys.length + s.inFlight.length ∧
    s.cache.tokens.length ≤ maxSize ∧ s.cache.data.keys.length ≤ maxSize ∧
    (∀ op, ¬ Deadlocks s.cache op) ∧ (∀ key, s.cache.delete key ≠ none) ∧
    (s.cache.data = ∅ → s.inFlight = [] → s.cache.tokens = [] ∧
      ∀ ws : List (K × V), (ws.map Prod.fst).Nodup → ws.length ≤ maxSize →
        (run Shared.turn s (ws.map (fun w => .start (.set w.1 w.2)))).isSome) := by
  have hm := reach_metered hs
  have hcount := hm.count.trans s.length_pending
  have hroom := hm.room
  refine ⟨hcount,hroom,by omega,hm.not_deadlocks,?_,?_⟩
  · intro key hblocked
    obtain ⟨hmem,ht⟩ := delete_blocked_iff.mp hblocked
    exact hm.tokens_ne_nil hmem ht
  · intro hdata hflight
    have hpending : s.pending = [] := by
      rw [Shared.pending,contents,hdata,hflight]
      rfl
    have ht : s.cache.tokens = [] := List.length_eq_zero_iff.mp (by rw [hm.count,hpending]; rfl)
    refine ⟨ht,?_⟩
    intro ws hkeys hlen
    apply hm.run_push ws
    · simpa [hpending] using hkeys
    · simpa [ht] using hlen

/-- Two writes overtake each other, and the later one is taken out again. -/
def overtaking : List (Turn ℕ Unit) :=
  [.start (.set 1 ()),.start (.set 2 ()),.insert 1,.insert 0,.start (.getAndRemove 2)]

theorem overtaking_accounted : ∃ s, run Shared.turn (newShared 30 2) overtaking = some s ∧
    s.cache.data.keys = [1] ∧ s.cache.tokens.length = s.cache.data.keys.length + s.inFlight.length ∧
    s.cache.delete 1 ≠ none := by
  obtain ⟨hcount,-,-,-,hdelete,-⟩ := capacity_accounted 30 2 _ (.of_guarded overtaking rfl (by decide))
  exact ⟨_,rfl,rfl,hcount,hdelete 1⟩

end Runs

end DhtOcean.Cache
