import Mathlib.Data.List.Perm.Basic
import DhtOcean.Cache.Deadlock

/-! # How long the cache without blocking keeps the last writes

Until it is full, the cache holds everything that was written, and its first
eviction is right too. But this eviction receives two tokens, so the next write
finds a free place in the channel and evicts nothing: from then on the cache holds
more entries than it should.
-/
namespace DhtOcean.Cache
open Foundation LRWCache
variable {K V : Type} [DecidableEq K]

/-- Writes one after the other, with nothing in between. -/
def writes (ws : List (K × V)) : List (Op K V) := ws.map (fun w => .set w.1 w.2)

/-- The last `n` of the writes. -/
def recent (n : ℕ) (ws : List (K × V)) : List (K × V) := ws.drop (ws.length - n)

/-- All calls return, and the cache holds exactly the last writes that fit into it. -/
def HoldsRecent (c : LRWCache K V) (ws : List (K × V)) : Prop :=
  ∃ c', run step c (writes ws) = some c' ∧ c'.contents.Perm (recent c.maxSize ws) ∧ c'.data.keys.length ≤ c.maxSize

instance decidableWritesAbsent (c : LRWCache K V) : ∀ op, Decidable (WritesAbsent c op)
  | .set key _ => inferInstanceAs (Decidable (key ∉ c.data))
  | .get _ => isTrue trivial
  | .getAndRemove _ => isTrue trivial
  | .delete _ => isTrue trivial
  | .tick => isTrue trivial
  | .fire _ => isTrue trivial
  | .expire _ => isTrue trivial

namespace LRWCache
variable {c c' : LRWCache K V} {key : K} {value : V}

theorem contents_erase (h : key ∈ c.data) : ∃ old, ∀ tokens timers,
    c.contents.Perm ((key,old) :: { c with tokens := tokens, timers := timers, data := c.data.erase key }.contents) := by
  obtain ⟨entry,before,after,-,hentries,herase⟩ := List.exists_of_kerase (AList.mem_keys.mp h)
  refine ⟨entry.value,?_⟩
  intro tokens timers
  have hnew : (c.data.erase key).entries = before ++ after := herase
  simp only [contents,hnew,hentries,List.map_append,List.map_cons]
  exact List.perm_middle

/-- Writes below capacity are kept, each with its token. -/
theorem run_below (ws : List (K × V)) (hroom : c.tokens.length + ws.length ≤ c.maxSize)
    (hg : Guarded step WritesAbsent c (writes ws)) :
    ∃ c', run step c (writes ws) = some c' ∧ c'.contents.Perm (c.contents ++ ws) ∧
      c'.tokens = c.tokens ++ ws.map Prod.fst ∧ c'.maxSize = c.maxSize ∧ c'.blocking = c.blocking := by
  induction ws generalizing c with
  | nil => exact ⟨c,rfl,by simp,by simp,rfl,rfl⟩
  | cons w ws ih =>
    obtain ⟨key,value⟩ := w
    obtain ⟨hkey,hrest⟩ := hg
    rw [List.length_cons] at hroom
    have hset : c.set key value = _ := LRWCache.set_below (show c.tokens.length < c.maxSize by omega)
    have hstore : ({ c with tokens := c.tokens ++ [key] }.store key value).contents = (key,value) :: c.contents :=
      contents_store value hkey
    obtain ⟨c',hrun,hperm,htokens,hmax,hmode⟩ := ih (c := { c with tokens := c.tokens ++ [key] }.store key value)
      (by simp only [store,List.length_append,List.length_singleton]; omega) (hrest _ hset)
    refine ⟨c',?_,hperm.trans ?_,?_,hmax,hmode⟩
    · rw [writes,List.map_cons,run]
      exact Option.bind_eq_some_iff.mpr ⟨_,hset,hrun⟩
    · rw [hstore]
      exact List.perm_middle.symm
    · rw [htokens]
      simp [store]

/-- An eviction costs at most one entry. -/
theorem makeRoom_data (h : c.makeRoom = some c') :
    (∀ k ∈ c'.data, k ∈ c.data) ∧ c.data.keys.length ≤ c'.data.keys.length + 1 := by
  unfold makeRoom at h
  split at h
  · obtain ⟨⟨oldest,d⟩,hreceive,hdelete⟩ := Option.bind_eq_some_iff.mp h
    have hd : d.data = c.data := by
      unfold receiveToken at hreceive
      split at hreceive
      · cases hreceive
      · cases hreceive
        rfl
    rcases delete_cases hdelete with ⟨-,rfl⟩ | ⟨k,tokens,timers,hmem,-,rfl⟩
    · exact ⟨fun k hk => hd ▸ hk,by rw [hd]; exact Nat.le_succ _⟩
    · have hl := length_keys_erase hmem
      rw [hd] at hl
      refine ⟨fun k hk => hd ▸ (AList.mem_erase.mp hk).2,?_⟩
      rw [← hl,hd]
  · cases h
    exact ⟨fun k hk => hk,Nat.le_succ _⟩

/-- A write of an absent key does not make the cache smaller. -/
theorem length_set (hkey : key ∉ c.data) (h : c.set key value = some c') :
    c.data.keys.length ≤ c'.data.keys.length := by
  simp only [set,Option.bind_eq_bind,Option.bind_eq_some_iff] at h
  obtain ⟨d,hroom,e,hsend,h⟩ := h
  cases h
  obtain ⟨hsub,hlen⟩ := makeRoom_data hroom
  simp only [sendToken,Option.ite_none_right_eq_some,Option.some.injEq] at hsend
  obtain ⟨-,rfl⟩ := hsend
  have hnew : key ∉ d.data := fun hmem => hkey (hsub key hmem)
  rw [store,length_keys_insert (c := d) hnew]
  exact hlen

theorem length_run (ws : List (K × V)) (hg : Guarded step WritesAbsent c (writes ws))
    (h : run step c (writes ws) = some c') : c.data.keys.length ≤ c'.data.keys.length := by
  induction ws generalizing c with
  | nil =>
    cases h
    exact Nat.le_refl _
  | cons w ws ih =>
    obtain ⟨d,hd,hrest⟩ := Option.bind_eq_some_iff.mp h
    exact Nat.le_trans (length_set hg.1 hd) (ih (hg.2 d hd) hrest)

/-- The write that finds the cache full blocks if there is only one token, and else evicts the oldest
entry but takes two tokens for it. -/
theorem set_full {oldest : K} {tokens : List K} (hmode : c.blocking = false) (hfull : c.tokens.length = c.maxSize)
    (ht : c.tokens = oldest :: tokens) (hold : oldest ∈ c.data) (hkey : key ∉ c.data) (value : V) :
    (tokens = [] ∧ c.set key value = none) ∨
    ∃ k rest c' old kept, tokens = k :: rest ∧ c.set key value = some c' ∧ c.contents.Perm ((oldest,old) :: kept) ∧
      c'.contents = (key,value) :: kept ∧ c'.tokens = rest ++ [key] ∧ c'.maxSize = c.maxSize := by
  have he : c.evicts = true := by simp [evicts,hmode,hfull]
  have hroom := makeRoom_full he ht
  cases tokens with
  | nil =>
    left
    refine ⟨rfl,?_⟩
    have hblocked : c.makeRoom = none := hroom.trans (delete_blocked_iff.mpr ⟨hold,rfl⟩)
    simp [set,hblocked]
  | cons k rest =>
    right
    obtain ⟨timers,hd⟩ := delete_present (c := { c with tokens := k :: rest }) hold rfl
    obtain ⟨old,hcontents⟩ := contents_erase hold
    have hlt : rest.length < c.maxSize := by
      rw [← hfull,ht,List.length_cons,List.length_cons]
      omega
    have hnew : key ∉ c.data.erase oldest := fun h => hkey (AList.mem_erase.mp h).2
    exact ⟨k,rest,_,old,_,rfl,set_of_makeRoom (hroom.trans hd) hlt,hcontents (rest ++ [key]) timers,
      contents_store value hnew,rfl,rfl⟩

end LRWCache

omit [DecidableEq K] in
theorem length_contents (c : LRWCache K V) : c.contents.length = c.data.keys.length := by
  rw [← keys_contents,List.length_map]

omit [DecidableEq K] in
/-- What remains of the contents besides one key. -/
theorem contents_unique {c : LRWCache K V} {key : K} {v w : V} {kept : List (K × V)} {ws : List (K × V)}
    (h : c.contents.Perm ((key,v) :: kept)) (h' : c.contents.Perm ((key,w) :: ws)) : kept.Perm ws := by
  have hnodup : (c.contents.map Prod.fst).Nodup := keys_contents c ▸ c.data.nodupKeys
  have hmem : (key,v) ∈ (key,w) :: ws := h'.mem_iff.mp (h.mem_iff.mpr List.mem_cons_self)
  have hkeys := (h'.map Prod.fst).nodup_iff.mp hnodup
  rcases List.mem_cons.mp hmem with heq | hin
  · cases heq
    exact (h.symm.trans h').cons_inv
  · exact absurd (List.mem_map_of_mem hin) (List.nodup_cons.mp hkeys).1

/-- The state of a full cache behind its first writes. -/
theorem filled {ttl : ℕ} (maxSize : ℕ) (ws : List (K × V)) (hlen : ws.length ≤ maxSize)
    (hg : Guarded step WritesAbsent (newLRWCache ttl maxSize false) (writes ws)) :
    ∃ c : LRWCache K V, run step (newLRWCache ttl maxSize false) (writes ws) = some c ∧ c.contents.Perm ws ∧
      c.tokens = ws.map Prod.fst ∧ c.maxSize = maxSize ∧ c.blocking = false := by
  obtain ⟨c,hrun,hperm,htokens,hmax,hmode⟩ := run_below ws (c := newLRWCache ttl maxSize false)
    (by simpa [newLRWCache] using hlen) hg
  exact ⟨c,hrun,hperm,htokens,hmax,hmode⟩

/-- One write more than the cache holds. -/
theorem overfilled {ttl : ℕ} {first w : K × V} {ws : List (K × V)}
    (hg : Guarded step WritesAbsent (newLRWCache ttl (ws.length + 1) false) (writes (first :: ws ++ [w]))) :
    (ws = [] ∧ run step (newLRWCache ttl (ws.length + 1) false) (writes (first :: ws ++ [w])) = none) ∨
    ∃ c : LRWCache K V, ws ≠ [] ∧ run step (newLRWCache ttl (ws.length + 1) false) (writes (first :: ws ++ [w])) = some c ∧
      c.contents.Perm (ws ++ [w]) ∧ c.tokens.length = ws.length ∧ c.maxSize = ws.length + 1 := by
  obtain ⟨key,value⟩ := w
  have hsplit : writes (first :: ws ++ [(key,value)]) = writes (first :: ws) ++ [Op.set key value] := by
    rw [writes,List.map_append]
    rfl
  rw [hsplit] at hg ⊢
  obtain ⟨hfirst,hlast⟩ := hg.of_append
  obtain ⟨c,hrun,hperm,htokens,hmax,hmode⟩ := filled (ws.length + 1) (first :: ws) (Nat.le_refl _) hfirst
  have hkey : key ∉ c.data := (hlast c hrun).1
  have hold : first.1 ∈ c.data := by
    apply AList.mem_keys.mpr
    rw [← keys_contents]
    exact List.mem_map.mpr ⟨first,hperm.mem_iff.mpr List.mem_cons_self,rfl⟩
  have hfull : c.tokens.length = c.maxSize := by
    rw [htokens,hmax,List.length_map,List.length_cons]
  have hrest : run step (newLRWCache ttl (ws.length + 1) false) (writes (first :: ws) ++ [Op.set key value]) =
      c.set key value := by
    rw [run_append,hrun,Option.bind_some,run]
    exact Option.bind_fun_some _
  rw [hrest]
  rcases set_full hmode hfull htokens hold hkey value with ⟨hnil,hnone⟩ | ⟨k,rest,c',old,kept,hcons,hset,hbefore,hafter,ht,hm⟩
  · exact .inl ⟨List.map_eq_nil_iff.mp hnil,hnone⟩
  · refine .inr ⟨c',?_,hset,?_,?_,hm.trans hmax⟩
    · rintro rfl
      cases hcons
    · rw [hafter]
      exact ((contents_unique hbefore hperm).cons _).trans (List.perm_append_singleton _ _).symm
    · have hl := congrArg List.length hcons
      rw [ht,List.length_append,List.length_singleton]
      simpa using hl.symm

/-- Writes beyond the first eviction leave one entry too many. -/
theorem overfull {c c' : LRWCache K V} (w : K × V) (ws : List (K × V)) (hlt : c.tokens.length < c.maxSize)
    (hg : Guarded step WritesAbsent c (writes (w :: ws))) (h : run step c (writes (w :: ws)) = some c') :
    c.data.keys.length + 1 ≤ c'.data.keys.length := by
  obtain ⟨key,value⟩ := w
  obtain ⟨d,hd,hrest⟩ := Option.bind_eq_some_iff.mp h
  have hkey : key ∉ c.data := hg.1
  have hset : c.set key value = some d := hd
  have hmono := length_run ws (hg.2 d hd) hrest
  rw [LRWCache.set_below hlt] at hset
  cases hset
  rw [store,length_keys_insert hkey] at hmono
  exact hmono

omit [DecidableEq K] in
theorem split_at_capacity {maxSize : ℕ} (hmax : 1 ≤ maxSize) {ws : List (K × V)} (hlen : maxSize < ws.length) :
    ∃ first mid w rest, ws = first :: mid ++ [w] ++ rest ∧ mid.length + 1 = maxSize := by
  obtain ⟨first,mid,hfront⟩ := List.exists_cons_of_length_pos (l := ws.take maxSize)
    (by rw [List.length_take]; omega)
  obtain ⟨w,rest,hback⟩ := List.exists_cons_of_length_pos (l := ws.drop maxSize)
    (by rw [List.length_drop]; omega)
  refine ⟨first,mid,w,rest,?_,?_⟩
  · rw [← hfront,List.append_assoc,List.singleton_append,← hback,List.take_append_drop]
  · rw [← List.length_cons,← hfront,List.length_take]
    omega

/-- The last writes are never more than fit. -/
theorem HoldsRecent.of_perm {c c' : LRWCache K V} {ws : List (K × V)} (hrun : run step c (writes ws) = some c')
    (hperm : c'.contents.Perm (recent c.maxSize ws)) : HoldsRecent c ws := by
  refine ⟨c',hrun,hperm,?_⟩
  rw [← length_contents,hperm.length_eq,recent,List.length_drop]
  omega

theorem holdsRecent_below {ttl maxSize : ℕ} {ws : List (K × V)} (hlen : ws.length ≤ maxSize)
    (hg : Guarded step WritesAbsent (newLRWCache ttl maxSize false) (writes ws)) :
    HoldsRecent (newLRWCache ttl maxSize false) ws := by
  obtain ⟨c,hrun,hperm,-,-,-⟩ := filled maxSize ws hlen hg
  have hrecent : recent maxSize ws = ws := by
    rw [recent,Nat.sub_eq_zero_of_le hlen,List.drop_zero]
  exact .of_perm hrun (hperm.trans (.of_eq hrecent.symm))

/-- Behind the first eviction only the cache as it is then holds the last writes. -/
theorem holdsRecent_beyond {ttl : ℕ} {first w : K × V} {mid rest : List (K × V)}
    (hg : Guarded step WritesAbsent (newLRWCache ttl (mid.length + 1) false) (writes (first :: mid ++ [w] ++ rest))) :
    HoldsRecent (newLRWCache ttl (mid.length + 1) false) (first :: mid ++ [w] ++ rest) ↔ mid ≠ [] ∧ rest = [] := by
  have hsplit : writes (first :: mid ++ [w] ++ rest) = writes (first :: mid ++ [w]) ++ writes rest := List.map_append
  rw [hsplit] at hg
  obtain ⟨hfront,hback⟩ := hg.of_append
  rcases overfilled hfront with ⟨rfl,hblocked⟩ | ⟨c,hmid,hrun,hperm,htokens,hmaxc⟩
  · apply iff_of_false
    · rintro ⟨c,hc,-,-⟩
      rw [hsplit,run_append,hblocked] at hc
      cases hc
    · exact fun h => h.1 rfl
  · cases rest with
    | nil =>
      rw [List.append_nil]
      have hrecent : recent (mid.length + 1) (first :: mid ++ [w]) = mid ++ [w] := by simp [recent]
      exact iff_of_true (.of_perm hrun (hperm.trans (.of_eq hrecent.symm))) ⟨hmid,rfl⟩
    | cons next rest =>
      apply iff_of_false
      · rintro ⟨c',hc,-,hsize⟩
        rw [hsplit,run_append,hrun,Option.bind_some] at hc
        have hmore := overfull next rest (by omega) (hback c hrun) hc
        rw [← length_contents,hperm.length_eq,List.length_append,List.length_singleton] at hmore
        have hsize : c'.data.keys.length ≤ mid.length + 1 := hsize
        omega
      · exact fun h => List.cons_ne_nil _ _ h.2

/-- Without expiry and deletion, the cache holds the last writes exactly until the first eviction is
over, and a cache of one entry not even so long. -/
theorem holdsRecent_iff {ttl maxSize : ℕ} (hmax : 1 ≤ maxSize) (ws : List (K × V))
    (hg : Guarded step WritesAbsent (newLRWCache ttl maxSize false) (writes ws)) :
    HoldsRecent (newLRWCache ttl maxSize false) ws ↔ ws.length ≤ maxSize ∨ (ws.length = maxSize + 1 ∧ 2 ≤ maxSize) := by
  by_cases hlen : ws.length ≤ maxSize
  · exact iff_of_true (holdsRecent_below hlen hg) (.inl hlen)
  · obtain ⟨first,mid,w,rest,rfl,rfl⟩ := split_at_capacity hmax (Nat.lt_of_not_le hlen)
    have hcount : (first :: mid ++ [w] ++ rest).length = mid.length + 2 + rest.length := by
      simp only [List.length_append,List.length_cons,List.length_nil]
    rw [holdsRecent_beyond hg,hcount,← List.length_pos_iff,← List.length_eq_zero_iff]
    omega

def fourWrites : List (ℕ × Char) := [(1,'a'),(2,'b'),(3,'c'),(4,'d')]

/-- Four writes into a cache of two leave three entries. -/
theorem fourWrites_overfull : Guarded step WritesAbsent (newLRWCache 5 2 false) (writes fourWrites) ∧
    (∃ c, run step (newLRWCache 5 2 false) (writes fourWrites) = some c ∧ c.contents = [(4,'d'),(3,'c'),(2,'b')]) ∧
    ¬ HoldsRecent (newLRWCache 5 2 false) fourWrites := by
  refine ⟨by decide,⟨_,rfl,rfl⟩,?_⟩
  rintro ⟨c,hc,-,hsize⟩
  cases hc
  exact absurd hsize (by decide)

/-- Three writes into a cache of two leave the last two. -/
theorem threeWrites_recent : ∃ c, run step (newLRWCache 5 2 false) (writes (fourWrites.take 3)) = some c ∧
    c.contents.Perm [(2,'b'),(3,'c')] := by
  obtain ⟨c,hrun,hperm,-⟩ := (@holdsRecent_iff ℕ Char _ 5 2 (by decide) (fourWrites.take 3) (by decide)).mpr (.inr (by decide))
  exact ⟨c,hrun,hperm⟩

end DhtOcean.Cache
