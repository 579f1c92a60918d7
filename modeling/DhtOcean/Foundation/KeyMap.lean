import Mathlib.Data.List.Sort
import Mathlib.Data.List.Lex
import Mathlib.Data.List.Perm.Subperm

/-! # Finite maps as association lists

A map is a list of entries with pairwise distinct keys, in any order of
enumeration. Lists in key order are canonical: two of them with the same
lookups are equal. `insert` writes one key and `ofPairs` writes a sequence of
entries, so that a repeated key takes its last value.
-/
namespace DhtOcean.Foundation.KeyMap
variable {K V W : Type*} [LinearOrder K]

def insert (k : K) (v : V) : List (K × V) → List (K × V)
  | [] => [(k,v)]
  | e :: m => if k < e.1 then (k,v) :: e :: m else if e.1 < k then e :: insert k v m else (k,v) :: m

def ofPairs (ps : List (K × V)) : List (K × V) := ps.foldl (fun m p => insert p.1 p.2 m) []

/-- Entries in strictly increasing key order. -/
def Sorted (m : List (K × V)) : Prop := m.Pairwise (fun a b => a.1 < b.1)

/-- The keys of a map in order, each with the value found under it. -/
def listed [BEq K] (m : List (K × V)) : List (K × V) :=
  ((m.map Prod.fst).insertionSort (· ≤ ·)).filterMap (fun k => (m.lookup k).map (k,·))

theorem mem_insert {k : K} {v : V} {m : List (K × V)} {e : K × V} (he : e ∈ insert k v m) :
    e = (k,v) ∨ e ∈ m := by
  induction m with
  | nil => exact Or.inl (List.mem_singleton.mp he)
  | cons a m ih =>
    unfold insert at he
    split at he
    · exact List.mem_cons.mp he
    · split at he
      · rcases List.mem_cons.mp he with rfl | he
        · exact Or.inr List.mem_cons_self
        · exact (ih he).imp_right (List.mem_cons_of_mem _)
      · exact (List.mem_cons.mp he).imp_right (List.mem_cons_of_mem _)

/-- A written entry takes the place of another one at most. -/
theorem insert_subperm (k : K) (v : V) (m : List (K × V)) : (insert k v m).Subperm (m ++ [(k,v)]) := by
  induction m with
  | nil => exact List.Subperm.refl _
  | cons a m ih =>
    unfold insert
    split
    · exact (List.perm_append_singleton (k,v) (a :: m)).symm.subperm
    · split
      · exact (List.subperm_cons a).mpr ih
      · exact ((List.perm_append_singleton (k,v) m).symm.subperm).cons_right a

theorem Sorted.insert {m : List (K × V)} (hm : Sorted m) (k : K) (v : V) : Sorted (insert k v m) := by
  induction m with
  | nil => exact List.pairwise_singleton _ _
  | cons a m ih =>
    obtain ⟨ha,hrest⟩ := List.pairwise_cons.mp hm
    unfold KeyMap.insert
    split
    · rename_i hk
      refine List.pairwise_cons.mpr ⟨?_,hm⟩
      intro e he
      rcases List.mem_cons.mp he with rfl | he
      · exact hk
      · exact hk.trans (ha e he)
    · split
      · rename_i hk
        refine List.pairwise_cons.mpr ⟨?_,ih hrest⟩
        intro e he
        rcases mem_insert he with rfl | he
        · exact hk
        · exact ha e he
      · rename_i h₁ h₂
        have hk : k = a.1 := le_antisymm (not_lt.mp h₂) (not_lt.mp h₁)
        exact List.pairwise_cons.mpr ⟨fun e he => hk ▸ ha e he,hrest⟩

theorem sorted_foldl_insert (ps : List (K × V)) {m : List (K × V)} (hm : Sorted m) :
    Sorted (ps.foldl (fun m p => insert p.1 p.2 m) m) := by
  induction ps generalizing m with
  | nil => exact hm
  | cons p ps ih => exact ih (hm.insert p.1 p.2)

theorem sorted_ofPairs (ps : List (K × V)) : Sorted (ofPairs ps) :=
  sorted_foldl_insert ps List.Pairwise.nil

theorem Sorted.nodup {m : List (K × V)} (hm : Sorted m) : (m.map Prod.fst).Nodup := by
  rw [List.Nodup,List.pairwise_map]
  exact hm.imp (fun h => h.ne)

/-- A key beyond all others is written at the end. -/
theorem insert_of_forall_lt {m : List (K × V)} {k : K} (hm : ∀ e ∈ m, e.1 < k) (v : V) :
    insert k v m = m ++ [(k,v)] := by
  induction m with
  | nil => rfl
  | cons a m ih =>
    have ha := hm a List.mem_cons_self
    simp only [insert,if_neg ha.asymm,if_pos ha,ih (fun e he => hm e (List.mem_cons_of_mem _ he)),
      List.cons_append]

theorem foldl_insert_sorted {m ps : List (K × V)} (h : Sorted (m ++ ps)) :
    ps.foldl (fun m p => insert p.1 p.2 m) m = m ++ ps := by
  induction ps generalizing m with
  | nil => simp
  | cons p ps ih =>
    have hlt : ∀ e ∈ m, e.1 < p.1 := fun e he => (List.pairwise_append.mp h).2.2 e he p List.mem_cons_self
    have h' : Sorted (m ++ [p] ++ ps) := by simpa using h
    rw [List.foldl_cons,insert_of_forall_lt hlt,ih h',List.append_assoc,List.singleton_append]

/-- Entries that are already in order are written as they stand. -/
theorem Sorted.ofPairs {m : List (K × V)} (hm : Sorted m) : ofPairs m = m :=
  foldl_insert_sorted (m := []) hm

/-- Lists in key order are determined by their entries. -/
theorem Sorted.eq_of_mem_iff {m n : List (K × V)} (hm : Sorted m) (hn : Sorted n)
    (h : ∀ e, e ∈ m ↔ e ∈ n) : m = n := by
  have hperm : m.Perm n := (List.perm_ext_iff_of_nodup hm.nodup.of_map hn.nodup.of_map).mpr h
  exact hperm.eq_of_pairwise (fun a b _ _ hab hba => absurd hab hba.asymm) hm hn

section Lookup
variable [BEq K] [LawfulBEq K]

theorem lookup_insert_self (k : K) (v : V) (m : List (K × V)) : (insert k v m).lookup k = some v := by
  induction m with
  | nil => simp [insert]
  | cons a m ih =>
    unfold insert
    split
    · simp
    · split
      · rename_i hk
        rw [List.lookup_cons,beq_false_of_ne hk.ne',ih]
      · simp

theorem lookup_insert_of_ne {k j : K} (hj : j ≠ k) (v : V) (m : List (K × V)) :
    (insert k v m).lookup j = m.lookup j := by
  induction m with
  | nil => simp [insert,List.lookup_cons,beq_false_of_ne hj]
  | cons a m ih =>
    unfold insert
    split
    · rw [List.lookup_cons,beq_false_of_ne hj]
    · split
      · rw [List.lookup_cons,List.lookup_cons,ih]
      · rename_i h₁ h₂
        have hk : k = a.1 := le_antisymm (not_lt.mp h₂) (not_lt.mp h₁)
        rw [List.lookup_cons,List.lookup_cons,beq_false_of_ne hj,beq_false_of_ne (hk ▸ hj)]

omit [LinearOrder K] in
theorem mem_of_lookup {m : List (K × V)} {k : K} {v : V} (h : m.lookup k = some v) : (k,v) ∈ m := by
  induction m with
  | nil => cases h
  | cons a m ih =>
    rw [List.lookup_cons] at h
    by_cases hk : k = a.1
    · simp only [hk,beq_self_eq_true,Option.some.injEq] at h
      rw [hk,← h]
      exact List.mem_cons_self
    · simp only [beq_false_of_ne hk] at h
      exact List.mem_cons_of_mem _ (ih h)

omit [LinearOrder K] in
/-- The first entry whose key passes a test is found under its key. -/
theorem lookup_of_find {m : List (K × V)} {p : K → Bool} {e : K × V} (h : m.find? (fun a => p a.1) = some e) :
    m.lookup e.1 = some e.2 := by
  induction m with
  | nil => cases h
  | cons a m ih =>
    rw [List.find?_cons] at h
    split at h
    · obtain rfl := Option.some.inj h
      rw [List.lookup_cons,beq_self_eq_true]
    · rename_i ha
      have hk : e.1 ≠ a.1 := by
        intro hk
        have hp := List.find?_some h
        rw [hk,ha] at hp
        cases hp
      rw [List.lookup_cons,beq_false_of_ne hk,ih h]

omit [LinearOrder K] in
theorem lookup_of_mem {m : List (K × V)} (hm : (m.map Prod.fst).Nodup) {k : K} {v : V}
    (h : (k,v) ∈ m) : m.lookup k = some v := by
  induction m with
  | nil => cases h
  | cons a m ih =>
    obtain ⟨ha,hrest⟩ := List.nodup_cons.mp hm
    rw [List.lookup_cons]
    rcases List.mem_cons.mp h with rfl | h
    · simp
    · have hk : k ≠ a.1 := by
        rintro rfl
        exact ha (List.mem_map.mpr ⟨_,h,rfl⟩)
      rw [beq_false_of_ne hk,ih hrest h]

theorem mem_foldl_insert {ps m : List (K × V)} (hp : (ps.map Prod.fst).Nodup) (hm : Sorted m)
    (hd : ∀ p ∈ ps, ∀ e ∈ m, p.1 ≠ e.1) (e : K × V) :
    e ∈ ps.foldl (fun m p => KeyMap.insert p.1 p.2 m) m ↔ e ∈ m ∨ e ∈ ps := by
  induction ps generalizing m with
  | nil => simp
  | cons p ps ih =>
    obtain ⟨hp₁,hp₂⟩ := List.nodup_cons.mp hp
    have hd' : ∀ q ∈ ps, ∀ a ∈ KeyMap.insert p.1 p.2 m, q.1 ≠ a.1 := by
      intro q hq a ha
      rcases mem_insert ha with rfl | ha
      · exact fun h => hp₁ (List.mem_map.mpr ⟨q,hq,h⟩)
      · exact hd q (List.mem_cons_of_mem _ hq) a ha
    have hins : e ∈ KeyMap.insert p.1 p.2 m ↔ e = p ∨ e ∈ m := by
      constructor
      · exact mem_insert
      · rintro (rfl | he)
        · exact mem_of_lookup (lookup_insert_self ..)
        · apply mem_of_lookup
          rw [lookup_insert_of_ne (Ne.symm (hd p List.mem_cons_self e he))]
          exact lookup_of_mem hm.nodup he
    rw [List.foldl_cons,ih hp₂ (hm.insert ..) hd',hins,List.mem_cons]
    tauto

/-- Writing distinct keys keeps exactly their entries. -/
theorem mem_ofPairs {ps : List (K × V)} (hp : (ps.map Prod.fst).Nodup) (e : K × V) :
    e ∈ KeyMap.ofPairs ps ↔ e ∈ ps := by
  have h := mem_foldl_insert hp List.Pairwise.nil (by simp) e
  simpa [KeyMap.ofPairs] using h

/-- The order in which a map is enumerated does not matter once it is sorted. -/
theorem ofPairs_perm {m n : List (K × V)} (hm : (m.map Prod.fst).Nodup) (h : m.Perm n) :
    KeyMap.ofPairs m = KeyMap.ofPairs n := by
  have hn : (n.map Prod.fst).Nodup := (h.map Prod.fst).nodup_iff.mp hm
  apply (sorted_ofPairs m).eq_of_mem_iff (sorted_ofPairs n)
  intro e
  rw [mem_ofPairs hm,mem_ofPairs hn,h.mem_iff]

theorem mem_listed {m : List (K × V)} {e : K × V} (he : e ∈ listed m) : e ∈ m := by
  obtain ⟨k,-,h⟩ := List.mem_filterMap.mp he
  obtain ⟨v,hv,rfl⟩ := Option.map_eq_some_iff.mp h
  exact mem_of_lookup hv

/-- Sorting the keys and looking each of them up lists the map in key order. -/
theorem listed_eq_ofPairs {m : List (K × V)} (hm : (m.map Prod.fst).Nodup) :
    listed m = KeyMap.ofPairs m := by
  have hperm := List.perm_insertionSort (· ≤ ·) (m.map Prod.fst)
  have hle := List.pairwise_insertionSort (· ≤ ·) (m.map Prod.fst)
  have hlt : ((m.map Prod.fst).insertionSort (· ≤ ·)).Pairwise (· < ·) :=
    hle.imp₂ (fun _ _ => lt_of_le_of_ne) (hperm.nodup_iff.mpr hm)
  have hs : Sorted (listed m) := by
    refine List.Pairwise.filterMap _ ?_ hlt
    intro j k hjk a ha b hb
    obtain ⟨v,-,rfl⟩ := Option.map_eq_some_iff.mp ha
    obtain ⟨w,-,rfl⟩ := Option.map_eq_some_iff.mp hb
    exact hjk
  apply hs.eq_of_mem_iff (sorted_ofPairs m)
  intro e
  rw [mem_ofPairs hm]
  refine ⟨mem_listed,fun he => ?_⟩
  apply List.mem_filterMap.mpr
  refine ⟨e.1,hperm.mem_iff.mpr (List.mem_map.mpr ⟨e,he,rfl⟩),?_⟩
  rw [lookup_of_mem hm he]
  rfl

theorem listed_perm {m : List (K × V)} (hm : (m.map Prod.fst).Nodup) : (listed m).Perm m := by
  rw [listed_eq_ofPairs hm]
  exact (List.perm_ext_iff_of_nodup (sorted_ofPairs m).nodup.of_map hm.of_map).mpr (mem_ofPairs hm)

omit [LinearOrder K] [LawfulBEq K] in
theorem lookup_map (f : V → W) (m : List (K × V)) (k : K) :
    (m.map (Prod.map id f)).lookup k = (m.lookup k).map f := by
  induction m with
  | nil => rfl
  | cons e m ih =>
    obtain ⟨j,v⟩ := e
    simp only [List.map_cons,Prod.map_apply,id_eq,List.lookup_cons,ih]
    cases k == j <;> rfl

omit [LawfulBEq K] in
theorem listed_map (f : V → W) (m : List (K × V)) :
    listed (m.map (Prod.map id f)) = (listed m).map (Prod.map id f) := by
  simp only [listed,List.map_filterMap,List.map_map,lookup_map,Option.map_map]
  rfl

end Lookup

end DhtOcean.Foundation.KeyMap
