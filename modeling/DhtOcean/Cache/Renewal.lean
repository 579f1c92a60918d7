import DhtOcean.Cache.Deadlock

/-! # What a second write of a live key does

A write of a live key replaces the entry but not its timer, which goes on and
removes the new entry when the old one would have expired, and it leaves a token
behind that belongs to no entry. A callback that waits for the mutex does the same
to an entry that is written meanwhile. A deletion, on the other hand, receives the
oldest token, whatever key it stands for.
-/
namespace DhtOcean.Cache
open Foundation LRWCache
variable {K V : Type} [DecidableEq K]

/-- A cache and when each key was last written. -/
structure Watched (K V : Type) where
  cache : LRWCache K V
  lastSet : K → ℕ

def newWatched (ttl maxSize : ℕ) (blocking : Bool) : Watched K V := ⟨newLRWCache ttl maxSize blocking,fun _ => 0⟩

namespace Op

def removes : Op K V → Option K
  | .getAndRemove key => some key
  | .delete key => some key
  | .expire key => some key
  | _ => none

/-- When the keys were last written, once the operation is over. -/
def stamp (clock : ℕ) (lastSet : K → ℕ) : Op K V → K → ℕ
  | .set key _ => Function.update lastSet key clock
  | _ => lastSet

end Op

def Watched.step (s : Watched K V) (op : Op K V) : Option (Watched K V) :=
  (Cache.step s.cache op).map (⟨·,op.stamp s.cache.clock s.lastSet⟩)

/-- The timers of the key that are armed and the callbacks for it that wait. -/
def LRWCache.pendingTimers (c : LRWCache K V) (key : K) : ℕ :=
  c.timers.countP (·.key = key) + c.expired.count key

/-- Every live key has one timer, that of its last write; no entry can expire before its time, and no
token is left without entries. -/
structure Renewed (s : Watched K V) : Prop where
  one : ∀ key ∈ s.cache.data, s.cache.pendingTimers key = 1
  last : ∀ key entry, s.cache.data.lookup key = some entry → ∀ t ∈ s.cache.timers, t.key = key → t.id = entry.timer
  ripe : ∀ key ∈ s.cache.data, key ∈ s.cache.expired → s.lastSet key + s.cache.ttl ≤ s.cache.clock
  empty : s.cache.data = ∅ → s.cache.tokens = []

def TokenEach (s : Watched K V) : Prop := ∀ key ∈ s.cache.data, s.cache.tokens.count key = 1

def FindsRoom (s : Watched K V) : Op K V → Prop
  | .set _ _ => s.cache.tokens.length < s.cache.maxSize
  | _ => True

/-- A key is written only when it is absent and no callback for it waits. -/
def WritesSettled (s : Watched K V) : Op K V → Prop
  | .set key _ => key ∉ s.cache.data ∧ key ∉ s.cache.expired
  | _ => True

/-- Of the live keys only that of the oldest token is removed. -/
def RemovesOldest (s : Watched K V) (op : Op K V) : Prop :=
  ∀ key ∈ op.removes, key ∈ s.cache.data → s.cache.tokens.head? = some key

namespace LRWCache
variable {c c' : LRWCache K V} {key : K} {entry : CacheEntry V}

theorem delete_entry (hl : c.data.lookup key = some entry) :
    c.delete key = some c' ↔ ∃ k tokens, c.tokens = k :: tokens ∧
      c' = { c with timers := c.timers.filter (·.id ≠ entry.timer), data := c.data.erase key, tokens := tokens } := by
  cases ht : c.tokens with
  | nil => simp [delete,hl,receiveToken,ht]
  | cons k tokens => simp [delete,hl,receiveToken,ht,eq_comm]

theorem countP_stop {timers : List (Timer K)} {id : ℕ} (h : ∀ t ∈ timers, t.key = key → t.id ≠ id) :
    (timers.filter (·.id ≠ id)).countP (·.key = key) = timers.countP (·.key = key) := by
  rw [List.countP_filter]
  apply List.countP_congr
  intro t ht
  simpa using h t ht

theorem countP_stopped {timers : List (Timer K)} {id : ℕ} (h : ∀ t ∈ timers, t.key = key → t.id = id) :
    (timers.filter (·.id ≠ id)).countP (·.key = key) = 0 := by
  rw [List.countP_filter,List.countP_eq_zero]
  intro t ht
  simpa using h t ht

end LRWCache

section Steps
variable {s s' : Watched K V} {op : Op K V}

/-- A step writes a key, removes one, starts a callback, or lets time pass. -/
theorem Watched.step_cases (hroom : FindsRoom s op) (h : s.step op = some s') :
    (∃ key value, op = .set key value ∧
      s' = ⟨{ s.cache with tokens := s.cache.tokens ++ [key] }.store key value,
        Function.update s.lastSet key s.cache.clock⟩) ∨
    (∃ key expired, op.removes = some key ∧ (∀ k ≠ key, expired.count k = s.cache.expired.count k) ∧
      { s.cache with expired := expired }.delete key = some s'.cache ∧ s'.lastSet = s.lastSet) ∨
    (∃ t, op = .fire t.id ∧ t ∈ s.cache.timers ∧ t.due ≤ s.cache.clock ∧
      s' = ⟨{ s.cache with timers := s.cache.timers.filter (·.id ≠ t.id), expired := s.cache.expired ++ [t.key] },
        s.lastSet⟩) ∨
    (op.removes = none ∧ (∀ key value, op ≠ .set key value) ∧
      ∃ clock, s.cache.clock ≤ clock ∧ s' = ⟨{ s.cache with clock := clock },s.lastSet⟩) := by
  obtain ⟨c,hc,rfl⟩ := Option.map_eq_some_iff.mp h
  cases op with
  | set key value =>
    have hset : s.cache.set key value = _ := set_below hroom
    cases hset.symm.trans hc
    exact .inl ⟨key,value,rfl,rfl⟩
  | getAndRemove key =>
    simp only [Cache.step,getAndRemove,Option.map_eq_some_iff,Option.bind_eq_bind,Option.bind_eq_some_iff] at hc
    obtain ⟨_,⟨d,hd,hr⟩,rfl⟩ := hc
    cases hr
    exact .inr (.inl ⟨key,_,rfl,fun _ _ => rfl,hd,rfl⟩)
  | delete key => exact .inr (.inl ⟨key,_,rfl,fun _ _ => rfl,hc,rfl⟩)
  | expire key =>
    simp only [Cache.step] at hc
    split at hc
    · exact .inr (.inl ⟨key,_,rfl,fun k hk => List.count_erase_of_ne hk,hc,rfl⟩)
    · cases hc
  | fire id =>
    simp only [Cache.step,Option.bind_eq_bind,Option.bind_eq_some_iff] at hc
    obtain ⟨t,ht,hr⟩ := hc
    cases hr
    have hdue := List.find?_some ht
    simp only [Bool.and_eq_true,beq_iff_eq,decide_eq_true_eq] at hdue
    obtain ⟨rfl,hdue⟩ := hdue
    exact .inr (.inr (.inl ⟨t,rfl,List.mem_of_find?_eq_some ht,hdue,rfl⟩))
  | get key =>
    cases hc
    exact .inr (.inr (.inr ⟨rfl,by simp,_,Nat.le_refl _,rfl⟩))
  | tick =>
    cases hc
    exact .inr (.inr (.inr ⟨rfl,by simp,_,Nat.le_succ _,rfl⟩))

end Steps

/-- Timers are armed for live keys only, each for the last write, and there are as many tokens as
entries. -/
structure Timed (s : Watched K V) : Prop where
  armed : ∀ t ∈ s.cache.timers, ∃ entry, s.cache.data.lookup t.key = some entry ∧ t.id = entry.timer ∧
    t.due = s.lastSet t.key + s.cache.ttl
  fresh : ∀ key entry, s.cache.data.lookup key = some entry → entry.timer < s.cache.nextTimer
  distinct : ∀ key key' entry entry', s.cache.data.lookup key = some entry → s.cache.data.lookup key' = some entry' →
    entry.timer = entry'.timer → key = key'
  one : ∀ key ∈ s.cache.data, s.cache.pendingTimers key = 1
  ripe : ∀ key ∈ s.cache.data, key ∈ s.cache.expired → s.lastSet key + s.cache.ttl ≤ s.cache.clock
  count : s.cache.tokens.length = s.cache.data.keys.length

section Lookup
variable {data : AList (fun _ : K => CacheEntry V)} {key k : K} {new entry : CacheEntry V}

theorem mem_of_lookup (h : data.lookup key = some entry) : key ∈ data :=
  AList.lookup_isSome.mp (by rw [h]; rfl)

theorem lookup_insert_some (h : (data.insert key new).lookup k = some entry) :
    (k = key ∧ entry = new) ∨ (k ≠ key ∧ data.lookup k = some entry) := by
  by_cases hk : k = key
  · subst hk
    rw [AList.lookup_insert] at h
    cases h
    exact .inl ⟨rfl,rfl⟩
  · rw [AList.lookup_insert_ne hk] at h
    exact .inr ⟨hk,h⟩

theorem lookup_erase_some (h : (data.erase key).lookup k = some entry) : k ≠ key ∧ data.lookup k = some entry := by
  by_cases hk : k = key
  · subst hk
    rw [AList.lookup_erase] at h
    cases h
  · rw [AList.lookup_erase_ne hk] at h
    exact ⟨hk,h⟩

end Lookup

namespace Timed
variable {s s' : Watched K V} {op : Op K V}

theorem new (ttl maxSize : ℕ) (blocking : Bool) : Timed (newWatched ttl maxSize blocking : Watched K V) where
  armed := by simp [newWatched,newLRWCache]
  fresh := by simp [newWatched,newLRWCache]
  distinct := by simp [newWatched,newLRWCache]
  one := by simp [newWatched,newLRWCache]
  ripe := by simp [newWatched,newLRWCache]
  count := rfl

theorem renewed (hs : Timed s) : Renewed s where
  one := hs.one
  last := by
    rintro key entry hl t ht rfl
    obtain ⟨entry',hl',hid,-⟩ := hs.armed t ht
    cases hl.symm.trans hl'
    exact hid
  ripe := hs.ripe
  empty := by
    intro h
    have hcount := hs.count
    rw [h] at hcount
    exact List.length_eq_zero_iff.mp hcount

theorem id_eq (hs : Timed s) {t : Timer K} (ht : t ∈ s.cache.timers) {entry : CacheEntry V}
    (hl : s.cache.data.lookup t.key = some entry) : t.id = entry.timer :=
  hs.renewed.last _ _ hl t ht rfl

theorem id_ne (hs : Timed s) {key : K} {entry : CacheEntry V} (hl : s.cache.data.lookup key = some entry)
    {t : Timer K} (ht : t ∈ s.cache.timers) (hne : t.key ≠ key) : t.id ≠ entry.timer := by
  obtain ⟨entry',hl',hid,-⟩ := hs.armed t ht
  intro h
  exact hne (hs.distinct _ _ _ _ hl' hl (hid.symm.trans h))

theorem wait (hs : Timed s) {clock : ℕ} (h : s.cache.clock ≤ clock) :
    Timed ⟨{ s.cache with clock := clock },s.lastSet⟩ :=
  ⟨hs.armed,hs.fresh,hs.distinct,hs.one,fun key hk he => Nat.le_trans (hs.ripe key hk he) h,hs.count⟩

theorem fire (hs : Timed s) {t : Timer K} (ht : t ∈ s.cache.timers) (hdue : t.due ≤ s.cache.clock) :
    Timed ⟨{ s.cache with timers := s.cache.timers.filter (·.id ≠ t.id), expired := s.cache.expired ++ [t.key] },
      s.lastSet⟩ := by
  obtain ⟨entry,hl,hid,hd⟩ := hs.armed t ht
  refine ⟨fun u hu => hs.armed u (List.mem_of_mem_filter hu),hs.fresh,hs.distinct,?_,?_,hs.count⟩
  · intro key hkey
    have hone := hs.one key hkey
    simp only [pendingTimers,List.count_append,List.count_singleton] at hone ⊢
    by_cases heq : t.key = key
    · subst heq
      have hpos : 0 < s.cache.timers.countP (·.key = t.key) := List.countP_pos_iff.mpr ⟨t,ht,by simp⟩
      rw [countP_stopped (fun u hu hk => (hs.id_eq hu (hk ▸ hl)).trans hid.symm)]
      simp only [beq_self_eq_true,if_true]
      omega
    · rw [countP_stop (fun u hu hk => hid ▸ hs.id_ne hl hu (hk ▸ Ne.symm heq))]
      simpa [heq] using hone
  · intro key hkey he
    rcases List.mem_append.mp he with he | he
    · exact hs.ripe key hkey he
    · cases List.mem_singleton.mp he
      exact hd ▸ hdue

theorem set (hs : Timed s) {key : K} (value : V) (hkey : key ∉ s.cache.data) (he : key ∉ s.cache.expired) :
    Timed ⟨{ s.cache with tokens := s.cache.tokens ++ [key] }.store key value,
      Function.update s.lastSet key s.cache.clock⟩ := by
  have hnone : ∀ t ∈ s.cache.timers, t.key ≠ key := by
    rintro t ht rfl
    obtain ⟨entry,hl,-⟩ := hs.armed t ht
    exact hkey (mem_of_lookup hl)
  refine ⟨?_,?_,?_,?_,?_,?_⟩
  · intro t ht
    rcases List.mem_append.mp ht with ht | ht
    · obtain ⟨entry,hl,hid,hd⟩ := hs.armed t ht
      refine ⟨entry,?_,hid,?_⟩
      · rw [store,AList.lookup_insert_ne (hnone t ht)]
        exact hl
      · change t.due = Function.update s.lastSet key s.cache.clock t.key + s.cache.ttl
        rw [Function.update_of_ne (hnone t ht)]
        exact hd
    · cases List.mem_singleton.mp ht
      refine ⟨_,AList.lookup_insert _,rfl,?_⟩
      exact congrArg (· + s.cache.ttl) (Function.update_self key s.cache.clock s.lastSet).symm
  · intro k entry hl
    rcases lookup_insert_some hl with ⟨-,rfl⟩ | ⟨-,h⟩
    · exact Nat.lt_succ_self _
    · exact Nat.lt_succ_of_lt (hs.fresh k entry h)
  · intro k k' entry entry' hl hl' heq
    -- No older entry has the number of the new timer.
    rcases lookup_insert_some hl with ⟨rfl,rfl⟩ | ⟨-,h⟩ <;> rcases lookup_insert_some hl' with ⟨rfl,rfl⟩ | ⟨-,h'⟩
    · rfl
    · exact absurd (hs.fresh k' entry' h') (heq ▸ Nat.lt_irrefl _)
    · exact absurd (hs.fresh k entry h) (heq ▸ Nat.lt_irrefl _)
    · exact hs.distinct k k' entry entry' h h' heq
  · intro k hk
    simp only [pendingTimers,store,List.countP_append,List.countP_singleton]
    rcases (AList.mem_insert _).mp hk with rfl | hk
    · rw [List.countP_eq_zero.mpr (by simpa using hnone),List.count_eq_zero.mpr he]
      simp
    · have hne : key ≠ k := fun h => hkey (h ▸ hk)
      have hone := hs.one k hk
      rw [pendingTimers] at hone
      simpa [hne] using hone
  · intro k hk hexp
    have hne : k ≠ key := fun h => he (h ▸ hexp)
    change Function.update s.lastSet key s.cache.clock k + s.cache.ttl ≤ s.cache.clock
    rw [Function.update_of_ne hne]
    exact hs.ripe k (((AList.mem_insert _).mp hk).resolve_left hne) hexp
  · simp only [store,List.length_append,List.length_singleton,length_keys_insert hkey,hs.count]

theorem remove (hs : Timed s) {key : K} {expired : List K} {c : LRWCache K V}
    (hcount : ∀ k ≠ key, expired.count k = s.cache.expired.count k)
    (h : { s.cache with expired := expired }.delete key = some c) : Timed ⟨c,s.lastSet⟩ := by
  have hmem : ∀ k ≠ key, k ∈ expired → k ∈ s.cache.expired := by
    intro k hk he
    rw [← List.count_pos_iff] at he ⊢
    rwa [← hcount k hk]
  cases hl : s.cache.data.lookup key with
  | none =>
    have habsent : key ∉ s.cache.data := AList.lookup_eq_none.mp hl
    cases (delete_absent (c := { s.cache with expired := expired }) habsent).symm.trans h
    refine ⟨hs.armed,hs.fresh,hs.distinct,?_,?_,hs.count⟩
    · intro k hk
      have hne : k ≠ key := fun h => habsent (h ▸ hk)
      have hone := hs.one k hk
      rw [pendingTimers] at hone ⊢
      rw [hcount k hne]
      exact hone
    · intro k hk he
      exact hs.ripe k hk (hmem k (fun h => habsent (h ▸ hk)) he)
  | some entry =>
    obtain ⟨k,tokens,ht,rfl⟩ := (delete_entry (c := { s.cache with expired := expired }) hl).mp h
    refine ⟨?_,?_,?_,?_,?_,?_⟩
    · intro t ht
      have hne : t.id ≠ entry.timer := by simpa using (List.mem_filter.mp ht).2
      have ht := List.mem_of_mem_filter ht
      obtain ⟨entry',hl',hid,hd⟩ := hs.armed t ht
      have hk : t.key ≠ key := fun h => hne (hs.id_eq ht (h ▸ hl))
      exact ⟨entry',(AList.lookup_erase_ne hk).trans hl',hid,hd⟩
    · exact fun k e h => hs.fresh k e (lookup_erase_some h).2
    · exact fun k k' e e' h h' => hs.distinct k k' e e' (lookup_erase_some h).2 (lookup_erase_some h').2
    · intro k hk
      obtain ⟨hne,hk⟩ := AList.mem_erase.mp hk
      have hone := hs.one k hk
      rw [pendingTimers] at hone ⊢
      dsimp only
      rw [countP_stop (fun u hu hk => hs.id_ne hl hu (hk ▸ hne)),hcount k hne]
      exact hone
    · intro k hk he
      obtain ⟨hne,hk⟩ := AList.mem_erase.mp hk
      exact hs.ripe k hk (hmem k hne he)
    · have hlen := length_keys_erase (c := s.cache) (mem_of_lookup hl)
      have hn := hs.count
      have ht : s.cache.tokens = k :: tokens := ht
      rw [ht,List.length_cons] at hn
      dsimp only
      omega

theorem step (hs : Timed s) (hroom : FindsRoom s op) (hg : WritesSettled s op) (h : s.step op = some s') :
    Timed s' := by
  rcases Watched.step_cases hroom h with ⟨key,value,rfl,rfl⟩ | ⟨key,expired,-,hcount,hd,hlast⟩ | ⟨t,rfl,ht,hdue,rfl⟩ |
    ⟨-,-,clock,hclock,rfl⟩
  · exact hs.set value hg.1 hg.2
  · have := hs.remove hcount hd
    rwa [← hlast] at this
  · exact hs.fire ht hdue
  · exact hs.wait hclock

/-- A write of a key with an entry or a callback leaves it with a timer too many. -/
theorem settled_of_renewed (hs : Timed s) (hroom : FindsRoom s op) (h : s.step op = some s') (hr : Renewed s') :
    WritesSettled s op := by
  cases op with
  | set key value =>
    rcases Watched.step_cases hroom h with ⟨_,_,⟨⟩,rfl⟩ | ⟨_,_,hop,-⟩ | ⟨t,hop,-⟩ | ⟨-,hop,-⟩
    · have hone := hr.one key ((AList.mem_insert _).mpr (.inl rfl))
      simp only [pendingTimers,store,List.countP_append,List.countP_singleton,decide_true,if_true] at hone
      constructor
      · intro hlive
        have hold := hs.one key hlive
        rw [pendingTimers] at hold
        omega
      · intro he
        have hpos := List.count_pos_iff.mpr he
        omega
    · cases hop
    · cases hop
    · exact absurd rfl (hop key value)
  | _ => trivial

end Timed

section Tokens
variable {s s' : Watched K V} {op : Op K V}

theorem tokenEach_of_perm (h : s.cache.tokens.Perm s.cache.data.keys) : TokenEach s := by
  intro key hkey
  rw [h.count_eq]
  exact List.count_eq_one_of_mem s.cache.data.nodupKeys (AList.mem_keys.mp hkey)

theorem tokens_perm_step (hp : s.cache.tokens.Perm s.cache.data.keys) (hroom : FindsRoom s op)
    (hw : WritesSettled s op) (ho : RemovesOldest s op) (h : s.step op = some s') :
    s'.cache.tokens.Perm s'.cache.data.keys := by
  rcases Watched.step_cases hroom h with ⟨key,value,rfl,rfl⟩ | ⟨key,expired,hop,-,hd,-⟩ | ⟨t,rfl,-,-,rfl⟩ | ⟨-,-,clock,-,rfl⟩
  · have hkey : key ∉ s.cache.data.keys := fun hk => hw.1 (AList.mem_keys.mpr hk)
    simp only [store,AList.keys_insert,List.erase_of_not_mem hkey]
    exact (List.perm_append_singleton key _).trans (hp.cons key)
  · rcases delete_cases hd with ⟨-,hc⟩ | ⟨k,tokens,timers,hmem,ht,hc⟩
    · rw [hc]
      exact hp
    · have hhead := ho key hop hmem
      have ht : s.cache.tokens = k :: tokens := ht
      rw [ht] at hhead hp
      cases hhead
      rw [hc,AList.keys_erase]
      have := hp.erase key
      rwa [List.erase_cons_head] at this
  · exact hp
  · exact hp

/-- Removing another key than that of the oldest token takes the token of a live key. -/
theorem oldest_of_tokenEach (hp : s.cache.tokens.Perm s.cache.data.keys) (hroom : FindsRoom s op)
    (h : s.step op = some s') (he : TokenEach s') : RemovesOldest s op := by
  intro key hop hkey
  rcases Watched.step_cases hroom h with ⟨_,_,rfl,-⟩ | ⟨key',expired,hop',-,hd,-⟩ | ⟨t,rfl,-⟩ | ⟨hnone,-⟩
  · cases hop
  · cases hop'.symm.trans hop
    rcases delete_cases hd with ⟨habsent,-⟩ | ⟨k,tokens,timers,-,ht,hc⟩
    · exact absurd hkey habsent
    · have ht : s.cache.tokens = k :: tokens := ht
      by_contra hne
      rw [ht,List.head?_cons,Option.some.injEq] at hne
      -- The token received was the only one of its key, which is still live.
      have hlive : k ∈ s.cache.data := AList.mem_keys.mpr (hp.mem_iff.mp (ht ▸ List.mem_cons_self))
      have hone := tokenEach_of_perm hp k hlive
      have hkept := he k (by rw [hc]; exact AList.mem_erase.mpr ⟨hne,hlive⟩)
      rw [ht,List.count_cons_self] at hone
      rw [hc] at hkept
      dsimp only at hkept
      omega
  · cases hop
  · rw [hnone] at hop
    cases hop

end Tokens

/-- Below capacity, the runs that renew every live key are those that write no key which is live or has
a callback waiting; and each live key has its token as long as besides the oldest is removed first. -/
theorem renewed_throughout_iff (ttl maxSize : ℕ) (blocking : Bool) (ops : List (Op K V)) (s : Watched K V)
    (hrun : run Watched.step (newWatched ttl maxSize blocking) ops = some s)
    (hroom : Guarded Watched.step FindsRoom (newWatched ttl maxSize blocking) ops) :
    (Throughout Watched.step Renewed (newWatched ttl maxSize blocking) ops ↔
      Guarded Watched.step WritesSettled (newWatched ttl maxSize blocking) ops) ∧
    (Throughout Watched.step (fun s => Renewed s ∧ TokenEach s) (newWatched ttl maxSize blocking) ops ↔
      Guarded Watched.step (fun s op => WritesSettled s op ∧ RemovesOldest s op)
        (newWatched ttl maxSize blocking) ops) := by
  constructor
  · exact throughout_iff_guarded Timed.renewed (fun hs hr hg h => hs.step hr hg h)
      (fun hs hr h hP => hs.settled_of_renewed hr h hP) (Timed.new ttl maxSize blocking) hrun hroom
  · refine throughout_iff_guarded (I := fun s => Timed s ∧ s.cache.tokens.Perm s.cache.data.keys) ?_ ?_ ?_
      ⟨Timed.new ttl maxSize blocking,.refl _⟩ hrun hroom
    · exact fun hs => ⟨hs.1.renewed,tokenEach_of_perm hs.2⟩
    · exact fun hs hr hg h => ⟨hs.1.step hr hg.1 h,tokens_perm_step hs.2 hr hg.1 hg.2 h⟩
    · exact fun hs hr h hP => ⟨hs.1.settled_of_renewed hr h hP.1,oldest_of_tokenEach hs.2 hr h hP.2⟩

section Sample

instance decidableFindsRoom (s : Watched K V) : ∀ op, Decidable (FindsRoom s op)
  | .set _ _ => inferInstanceAs (Decidable (s.cache.tokens.length < s.cache.maxSize))
  | .get _ => isTrue trivial
  | .getAndRemove _ => isTrue trivial
  | .delete _ => isTrue trivial
  | .tick => isTrue trivial
  | .fire _ => isTrue trivial
  | .expire _ => isTrue trivial

instance decidableWritesSettled (s : Watched K V) : ∀ op, Decidable (WritesSettled s op)
  | .set key _ => inferInstanceAs (Decidable (key ∉ s.cache.data ∧ key ∉ s.cache.expired))
  | .get _ => isTrue trivial
  | .getAndRemove _ => isTrue trivial
  | .delete _ => isTrue trivial
  | .tick => isTrue trivial
  | .fire _ => isTrue trivial
  | .expire _ => isTrue trivial

instance decidableRemovesOldest (s : Watched K V) (op : Op K V) : Decidable (RemovesOldest s op) :=
  inferInstanceAs (Decidable (∀ key ∈ op.removes, key ∈ s.cache.data → s.cache.tokens.head? = some key))

/-- A key expires and is written again, and the other one is taken out. -/
def expiryAndReturn : List (Op ℕ Unit) :=
  [.set 1 (),.tick,.set 2 (),.tick,.fire 0,.expire 1,.set 1 (),.getAndRemove 2]

theorem expiryAndReturn_renewed : ∃ s, run Watched.step (newWatched 2 5 true) expiryAndReturn = some s ∧
    s.cache.data.keys = [1] ∧ Throughout Watched.step Renewed (newWatched 2 5 true) expiryAndReturn ∧
    Throughout Watched.step (fun s => Renewed s ∧ TokenEach s) (newWatched 2 5 true) expiryAndReturn := by
  obtain ⟨htimers,htokens⟩ := renewed_throughout_iff 2 5 true expiryAndReturn _ rfl (by decide)
  exact ⟨_,rfl,rfl,htimers.mpr (by decide),htokens.mpr (by decide)⟩

/-- The timer of the first write removes the second one a second early and leaves a token without
an entry. -/
def ExpiresEarly (blocking : Bool) : Prop :=
  ∃ s s' : Watched ℕ Unit, run Watched.step (newWatched 2 5 blocking) [.set 1 (),.tick,.set 1 (),.tick,.fire 0] = some s ∧
    s.cache.data.keys = [1] ∧ s.cache.clock = 2 ∧ s.lastSet 1 + s.cache.ttl = 3 ∧
    s.step (.expire 1) = some s' ∧ s'.cache.data.keys = [] ∧ s'.cache.tokens = [1]

/-- Both modes expire early; and taking out the younger of two keys takes the token of the other one. -/
theorem second_write_expires_early : ExpiresEarly false ∧ ExpiresEarly true ∧
    ∃ s, run Watched.step (newWatched 2 5 true) [.set 1 (),.set 2 (),.delete 2] = some s ∧
      s.cache.data.keys = [1] ∧ s.cache.tokens = [2] := by
  refine ⟨⟨_,_,rfl,rfl,rfl,rfl,rfl,rfl,rfl⟩,⟨_,_,rfl,rfl,rfl,rfl,rfl,rfl,rfl⟩,?_⟩
  exact ⟨_,rfl,rfl,rfl⟩

end Sample

end DhtOcean.Cache
