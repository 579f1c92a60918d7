import DhtOcean.Foundation.Bytes
import DhtOcean.Foundation.Find
import DhtOcean.Foundation.Outcome
import DhtOcean.Store.TrackerState

/-! # Choosing torrents for the tracker

`getRecords` asks for torrents that were never tried, then for those without a
result, then for those with an old one, each time for as many as are still wanted.
A torrent may match more than one of the three queries. The second query sorts the
torrents that were never tried to its front, so it repeats one as soon as there is
one that both queries match. The third query repeats one if there is room for it
behind the results that are older than its own.
-/
namespace DhtOcean.Selection
open Foundation
variable {E : Type}

/-- The fields that the queries read, with dates in milliseconds. -/
structure Torrent where
  infoHash : Bytes
  updatedAt : Option ℤ
  trackerUpdatedAt : Option ℤ
  trackerLastTriedAt : Option ℤ
  deriving DecidableEq, Repr

inductive Field
  | updatedAt
  | trackerUpdatedAt
  | trackerLastTriedAt

def Torrent.date (t : Torrent) : Field → Option ℤ
  | .updatedAt => t.updatedAt
  | .trackerUpdatedAt => t.trackerUpdatedAt
  | .trackerLastTriedAt => t.trackerLastTriedAt

inductive Filter
  | eqNull (field : Field)
  | lte (field : Field) (date : ℤ)

/-- Null is not less than any date. -/
def Filter.accepts : Filter → Torrent → Bool
  | .eqNull field, t => (t.date field).isNone
  | .lte field date, t => (t.date field).any (· ≤ date)

/-- The options of a `SimpleFind`; the sort is ascending. -/
structure Query where
  filter : Filter
  sort : Field
  limit : Int64

/-- Null comes before every date. -/
def Ascending (field : Field) (a b : Torrent) : Prop :=
  match a.date field, b.date field with
  | none, _ => True
  | some _, none => False
  | some x, some y => x ≤ y

/-- A limit of zero is none, and a negative one stands for its absolute value. -/
def maxCount (docs : List Torrent) (limit : Int64) : ℕ :=
  if limit = 0 then docs.length else limit.toInt.natAbs

structure Database (E : Type) where
  docs : List Torrent
  distinct : (docs.map Torrent.infoHash).Nodup
  simpleFind : Query → Except E (List Torrent)
  answers : ∀ {q ts}, simpleFind q = .ok ts →
    Found (Ascending q.sort) q.filter.accepts (maxCount docs q.limit) docs ts

def sixHours : ℤ := Store.sixHours

def notTriedQuery (size : Int64) : Query := ⟨.eqNull .trackerLastTriedAt,.updatedAt,size⟩

def newRecordsQuery (limit : Int64) : Query := ⟨.eqNull .trackerUpdatedAt,.trackerLastTriedAt,limit⟩

def outdatedQuery (now : ℤ) (limit : Int64) : Query :=
  ⟨.lte .trackerUpdatedAt (now - sixHours),.trackerUpdatedAt,limit⟩

def getRecords (db : Database E) (size : Int64) (now : ℤ) : Except E (List Torrent) := do
  let notTried ← db.simpleFind (notTriedQuery size)
  let limit := size - Int64.ofNat notTried.length
  if limit = 0 then return notTried
  else do
    let newRecords ← db.simpleFind (newRecordsQuery limit)
    let limit := limit - Int64.ofNat newRecords.length
    if limit = 0 then return notTried ++ newRecords
    else do
      let outdated ← db.simpleFind (outdatedQuery now limit)
      return notTried ++ newRecords ++ outdated

namespace Torrent

def neverTried (t : Torrent) : Bool := t.trackerLastTriedAt.isNone

def neverUpdated (t : Torrent) : Bool := t.trackerUpdatedAt.isNone

def outdated (now : ℤ) (t : Torrent) : Bool := t.trackerUpdatedAt.any (· ≤ now - sixHours)

def eligible (now : ℤ) (t : Torrent) : Bool := t.neverTried || t.neverUpdated || t.outdated now

end Torrent

/-- What the tracker is to get: distinct torrents that are due, those never tried first, and as many as
there are up to the size. -/
structure Selects (docs : List Torrent) (size : ℕ) (now : ℤ) (records : List Torrent) : Prop where
  atMost : records.length ≤ size
  distinct : (records.map Torrent.infoHash).Nodup
  due : ∀ t ∈ records, t ∈ docs ∧ t.eligible now = true
  neverTried_first : records.Pairwise (fun a b => b.neverTried = true → a.neverTried = true)
  count : records.length = min size (docs.filter (Torrent.eligible now)).length

/-- The torrents that were never tried fill the list, or else none of them lacks a result as well, and none
of them is among the outdated ones that the list is filled up with. -/
def NoOverlap (db : Database E) (size : ℕ) (now : ℤ) : Prop :=
  let tried := (db.docs.filter Torrent.neverTried).length
  let updated := (db.docs.filter Torrent.neverUpdated).length
  size ≤ tried ∨
  (∀ t ∈ db.docs, t.neverTried = true → t.neverUpdated = false) ∧
  (size ≤ tried + updated ∨
    ∀ ts, db.simpleFind (outdatedQuery now (Int64.ofNat (size - tried - updated))) = .ok ts →
      ∀ t ∈ ts, t.neverTried = false)

instance decidableAscending (field : Field) : DecidableRel (Ascending field) := fun a b =>
  match ha : a.date field, hb : b.date field with
  | none, _ => isTrue (by simp [Ascending,ha])
  | some _, none => isFalse (by simp [Ascending,ha,hb])
  | some x, some y => decidable_of_iff (x ≤ y) (by simp [Ascending,ha,hb])

/-- The torrents that were never tried fill the list, or else none of them lacks a result as well, and the
outdated ones with an older result than such a torrent leave no room for it. -/
def NoRepeat (docs : List Torrent) (size : ℕ) (now : ℤ) : Prop :=
  let tried := (docs.filter Torrent.neverTried).length
  let updated := (docs.filter Torrent.neverUpdated).length
  size ≤ tried ∨
  (∀ t ∈ docs, t.neverTried = true → t.neverUpdated = false) ∧
  ∀ t ∈ docs, t.neverTried = true → t.outdated now = true →
    size - tried - updated ≤ (ahead (Ascending .trackerUpdatedAt) (Torrent.outdated now) docs t).length

instance decidableNoRepeat (docs : List Torrent) (size : ℕ) (now : ℤ) : Decidable (NoRepeat docs size now) :=
  inferInstanceAs (Decidable (_ ∨ _ ∧ _))

instance totalAscending (field : Field) : Std.Total (Ascending field) where
  total a b := by
    unfold Ascending
    cases a.date field <;> cases b.date field <;> simp [le_total]

instance transAscending (field : Field) : IsTrans Torrent (Ascending field) where
  trans a b c hab hbc := by
    unfold Ascending at *
    cases ha : a.date field with
    | none => trivial
    | some x =>
      cases hb : b.date field with
      | none => simp [ha,hb] at hab
      | some y =>
        cases hc : c.date field with
        | none => simp [hb,hc] at hbc
        | some z =>
          simp only [ha,hb,hc] at hab hbc ⊢
          exact hab.trans hbc

section Parts
variable {docs notTried newRecords outdated records : List Torrent} {size : ℕ} {now : ℤ}

/-- The answers of the three queries, one after the other. -/
structure Parts (docs : List Torrent) (size : ℕ) (now : ℤ) (notTried newRecords outdated : List Torrent) : Prop where
  first : Found (Ascending .updatedAt) Torrent.neverTried size docs notTried
  second : Found (Ascending .trackerLastTriedAt) Torrent.neverUpdated (size - notTried.length) docs newRecords
  third : Found (Ascending .trackerUpdatedAt) (Torrent.outdated now)
    (size - notTried.length - newRecords.length) docs outdated

section Limit
variable {limit : Int64} {n : ℕ}

theorem limit_eq_zero_iff (hn : limit.toInt = n) : limit = 0 ↔ n = 0 := by
  rw [← Int64.toInt_inj,hn,Int64.toInt_zero]
  exact Int.natCast_eq_zero

theorem limit_eq_ofNat (hn : limit.toInt = n) : limit = Int64.ofNat n := by
  have hhi := limit.toInt_lt
  rw [← Int64.toInt_inj,hn,Int64.toInt_ofNat_of_lt (by omega)]

/-- What is left of a limit after some answers. -/
theorem limit_sub (hn : limit.toInt = n) {k : ℕ} (hk : k ≤ n) : (limit - Int64.ofNat k).toInt = (n - k : ℕ) := by
  have hlo := limit.le_toInt
  have hhi := limit.toInt_lt
  rw [Int64.toInt_sub,hn,Int64.toInt_ofNat_of_lt (by omega),Int.ofNat_sub hk]
  apply Int.bmod_eq_of_le
  · omega
  · omega

/-- A limit that is used up asks for nothing. -/
theorem found_none (field : Field) (p : Torrent → Bool) (hn : n = 0) : Found (Ascending field) p n docs [] := by
  subst hn
  exact Found.of_insertionSort p 0 docs

theorem maxCount_eq (hn : limit.toInt = n) (hpos : n ≠ 0) : maxCount docs limit = n := by
  rw [maxCount,if_neg (mt (limit_eq_zero_iff hn).mp hpos)]
  omega

theorem Database.found {db : Database E} {q : Query} {ts : List Torrent} (h : db.simpleFind q = .ok ts)
    (hn : q.limit.toInt = n) (hpos : n ≠ 0) : Found (Ascending q.sort) q.filter.accepts n db.docs ts := by
  have hfound := db.answers h
  rw [maxCount_eq hn hpos] at hfound
  exact hfound

end Limit

theorem getRecords_eq_ok {db : Database E} {size : Int64} (hsize : 1 ≤ size.toInt)
    (h : getRecords db size now = .ok records) :
    ∃ notTried newRecords outdated, records = notTried ++ newRecords ++ outdated ∧
      Parts db.docs size.toInt.toNat now notTried newRecords outdated ∧
      (notTried.length + newRecords.length < size.toInt.toNat →
        db.simpleFind (outdatedQuery now
          (Int64.ofNat (size.toInt.toNat - notTried.length - newRecords.length))) = .ok outdated) := by
  have hlimit : size.toInt = size.toInt.toNat := by omega
  generalize size.toInt.toNat = n at hlimit ⊢
  unfold getRecords at h
  obtain ⟨notTried,hnot,h⟩ := exceptBind_eq_ok.mp h
  have hfirst := db.found hnot hlimit (by omega)
  have hlen₁ := hfirst.length_eq
  have hlimit₁ := limit_sub hlimit (show notTried.length ≤ n by omega)
  dsimp only at h
  split at h
  · rename_i hzero
    cases h
    have hleft := (limit_eq_zero_iff hlimit₁).mp hzero
    refine ⟨records,[],[],by simp,⟨hfirst,found_none _ _ hleft,found_none _ _ (by omega)⟩,?_⟩
    intro hlt
    rw [List.length_nil] at hlt
    omega
  · rename_i hne₁
    obtain ⟨newRecords,hnew,h⟩ := exceptBind_eq_ok.mp h
    have hsecond := db.found hnew hlimit₁ (mt (limit_eq_zero_iff hlimit₁).mpr hne₁)
    have hlen₂ := hsecond.length_eq
    have hlimit₂ := limit_sub hlimit₁ (show newRecords.length ≤ n - notTried.length by omega)
    split at h
    · rename_i hzero
      cases h
      have hleft := (limit_eq_zero_iff hlimit₂).mp hzero
      exact ⟨notTried,newRecords,[],by simp,⟨hfirst,hsecond,found_none _ _ hleft⟩,by omega⟩
    · rename_i hne₂
      obtain ⟨outdated,hout,h⟩ := exceptBind_eq_ok.mp h
      cases h
      have hthird := db.found hout hlimit₂ (mt (limit_eq_zero_iff hlimit₂).mpr hne₂)
      rw [limit_eq_ofNat hlimit₂] at hout
      exact ⟨notTried,newRecords,outdated,rfl,⟨hfirst,hsecond,hthird⟩,fun _ => hout⟩

/-- No torrent that was never tried comes from the second query or the third. -/
def Apart (docs : List Torrent) (size : ℕ) (outdated : List Torrent) : Prop :=
  size ≤ (docs.filter Torrent.neverTried).length ∨
  (∀ t ∈ docs, t.neverTried = true → t.neverUpdated = false) ∧ ∀ t ∈ outdated, t.neverTried = false

theorem neverUpdated_ne_outdated {t : Torrent} (h : t.neverUpdated = true) : t.outdated now = false := by
  rw [Torrent.neverUpdated,Option.isNone_iff_eq_none] at h
  rw [Torrent.outdated,h]
  rfl

namespace Parts

theorem length_le (h : Parts docs size now notTried newRecords outdated) :
    (notTried ++ newRecords ++ outdated).length ≤ size := by
  have h₁ := h.first.length_eq
  have h₂ := h.second.length_eq
  have h₃ := h.third.length_eq
  rw [List.length_append,List.length_append]
  omega

theorem due (h : Parts docs size now notTried newRecords outdated) {t : Torrent}
    (ht : t ∈ notTried ++ newRecords ++ outdated) : t ∈ docs ∧ t.eligible now = true := by
  rcases List.mem_append.mp ht with ht | ht
  · rcases List.mem_append.mp ht with ht | ht
    · obtain ⟨hmem,hp⟩ := h.first.mem ht
      exact ⟨hmem,by simp [Torrent.eligible,hp]⟩
    · obtain ⟨hmem,hp⟩ := h.second.mem ht
      exact ⟨hmem,by simp [Torrent.eligible,hp]⟩
  · obtain ⟨hmem,hp⟩ := h.third.mem ht
    exact ⟨hmem,by simp [Torrent.eligible,hp]⟩

/-- Only a full list misses a torrent that is due. -/
theorem mem_of_due (h : Parts docs size now notTried newRecords outdated)
    (hlen : (notTried ++ newRecords ++ outdated).length < size) {t : Torrent} (ht : t ∈ docs)
    (hdue : t.eligible now = true) : t ∈ notTried ++ newRecords ++ outdated := by
  rw [List.length_append,List.length_append] at hlen
  simp only [Torrent.eligible,Bool.or_eq_true] at hdue
  rcases hdue with (hp | hp) | hp
  · have hmem := h.first.mem_of_length_lt (by omega) ht hp
    exact List.mem_append_left _ (List.mem_append_left _ hmem)
  · have hmem := h.second.mem_of_length_lt (by omega) ht hp
    exact List.mem_append_left _ (List.mem_append_right _ hmem)
  · have hmem := h.third.mem_of_length_lt (by omega) ht hp
    exact List.mem_append_right _ hmem

/-- Behind the first query nothing comes that was never tried. -/
theorem tried_behind (h : Parts docs size now notTried newRecords outdated) (hapart : Apart docs size outdated)
    {t : Torrent} (ht : t ∈ newRecords ++ outdated) : t.neverTried = false := by
  rcases hapart with hfull | ⟨hnew,hold⟩
  · -- The first query has used up the limit.
    have h₁ := h.first.length_eq
    have h₂ := h.second.length_eq
    have h₃ := h.third.length_eq
    have hpos := List.length_pos_of_mem ht
    rw [List.length_append] at hpos
    omega
  · rcases List.mem_append.mp ht with ht | ht
    · obtain ⟨hmem,hp⟩ := h.second.mem ht
      cases htried : t.neverTried with
      | false => rfl
      | true =>
        rw [hnew t hmem htried] at hp
        cases hp
    · exact hold t ht

theorem nodup (h : Parts docs size now notTried newRecords outdated) (hdocs : docs.Nodup)
    (hapart : Apart docs size outdated) : (notTried ++ newRecords ++ outdated).Nodup := by
  rw [List.append_assoc,List.nodup_append,List.nodup_append]
  refine ⟨h.first.nodup hdocs,⟨h.second.nodup hdocs,h.third.nodup hdocs,?_⟩,?_⟩
  · rintro t ht u hu rfl
    have hnew := (h.second.mem ht).2
    have hold := (h.third.mem hu).2
    rw [neverUpdated_ne_outdated hnew] at hold
    cases hold
  · rintro t ht u hu rfl
    have htried := (h.first.mem ht).2
    rw [h.tried_behind hapart hu] at htried
    cases htried

theorem neverTried_first (h : Parts docs size now notTried newRecords outdated) (hapart : Apart docs size outdated) :
    (notTried ++ newRecords ++ outdated).Pairwise (fun a b => b.neverTried = true → a.neverTried = true) := by
  rw [List.append_assoc,List.pairwise_append]
  refine ⟨?_,?_,?_⟩
  · apply List.pairwise_of_forall_mem_list
    intro a ha b hb _
    exact (h.first.mem ha).2
  · apply List.pairwise_of_forall_mem_list
    intro a ha b hb htried
    rw [h.tried_behind hapart hb] at htried
    cases htried
  · intro a ha b hb _
    exact (h.first.mem ha).2

theorem count (h : Parts docs size now notTried newRecords outdated) (hdocs : docs.Nodup)
    (hapart : Apart docs size outdated) :
    (notTried ++ newRecords ++ outdated).length = min size (docs.filter (Torrent.eligible now)).length := by
  have hle := h.length_le
  have hsub : (notTried ++ newRecords ++ outdated).length ≤ (docs.filter (Torrent.eligible now)).length := by
    apply (List.subperm_of_subset (h.nodup hdocs hapart) _).length_le
    intro t ht
    exact List.mem_filter.mpr (h.due ht)
  have hall : (notTried ++ newRecords ++ outdated).length < size →
      (docs.filter (Torrent.eligible now)).length ≤ (notTried ++ newRecords ++ outdated).length := by
    intro hlt
    apply (List.subperm_of_subset (hdocs.filter _) _).length_le
    intro t ht
    obtain ⟨hmem,hdue⟩ := List.mem_filter.mp ht
    exact h.mem_of_due hlt hmem hdue
  omega

/-- Unless the first query fills the list, it returns all that was never tried. -/
theorem mem_notTried (h : Parts docs size now notTried newRecords outdated)
    (hroom : ¬ size ≤ (docs.filter Torrent.neverTried).length) {t : Torrent} (ht : t ∈ docs)
    (htried : t.neverTried = true) : t ∈ notTried := by
  have h₁ := h.first.length_eq
  exact h.first.mem_of_length_lt (by omega) ht htried

/-- The second query returns one that was never tried, if it matches any. -/
theorem exists_neverTried (h : Parts docs size now notTried newRecords outdated)
    (hroom : ¬ size ≤ (docs.filter Torrent.neverTried).length) {t : Torrent} (ht : t ∈ docs)
    (htried : t.neverTried = true) (hupdated : t.neverUpdated = true) :
    ∃ u ∈ newRecords, u.neverTried = true := by
  have h₁ := h.first.length_eq
  obtain ⟨u,hu,rfl | hbefore⟩ := h.second.exists_first (by omega) ht hupdated
  · exact ⟨u,hu,htried⟩
  · refine ⟨u,hu,?_⟩
    rw [Torrent.neverTried,Option.isNone_iff_eq_none] at htried ⊢
    simp only [Ascending,Torrent.date,htried] at hbefore
    cases hdate : u.trackerLastTriedAt with
    | none => rfl
    | some x => simp [hdate] at hbefore

theorem apart_of_nodup (h : Parts docs size now notTried newRecords outdated)
    (hnodup : (notTried ++ newRecords ++ outdated).Nodup) : Apart docs size outdated := by
  by_cases hroom : size ≤ (docs.filter Torrent.neverTried).length
  · exact .inl hroom
  · rw [List.append_assoc,List.nodup_append] at hnodup
    obtain ⟨-,-,hdisjoint⟩ := hnodup
    refine .inr ⟨?_,?_⟩
    · intro t ht htried
      cases hupdated : t.neverUpdated with
      | false => rfl
      | true =>
        obtain ⟨u,hu,hu'⟩ := h.exists_neverTried hroom ht htried hupdated
        have hmem := h.mem_notTried hroom (h.second.mem hu).1 hu'
        exact absurd rfl (hdisjoint u hmem u (List.mem_append_left _ hu))
    · intro t ht
      cases htried : t.neverTried with
      | false => rfl
      | true =>
        have hmem := h.mem_notTried hroom (h.third.mem ht).1 htried
        exact absurd rfl (hdisjoint t hmem t (List.mem_append_right _ ht))

/-- The selection is as it should be exactly if the later queries do not repeat the first. -/
theorem selects_iff (h : Parts docs size now notTried newRecords outdated)
    (hdocs : (docs.map Torrent.infoHash).Nodup) :
    Selects docs size now (notTried ++ newRecords ++ outdated) ↔ Apart docs size outdated := by
  constructor
  · intro hs
    exact h.apart_of_nodup hs.distinct.of_map
  · intro hapart
    refine ⟨h.length_le,?_,fun t ht => h.due ht,h.neverTried_first hapart,h.count hdocs.of_map hapart⟩
    apply List.Nodup.map_on _ (h.nodup hdocs.of_map hapart)
    intro t ht u hu heq
    exact List.inj_on_of_nodup_map hdocs (h.due ht).1 (h.due hu).1 heq

end Parts

end Parts

/-- What the condition says of the third query is what the list has from it. -/
theorem noOverlap_iff {db : Database E} {size : ℕ} {now : ℤ} {notTried newRecords outdated : List Torrent}
    (h : Parts db.docs size now notTried newRecords outdated)
    (hquery : notTried.length + newRecords.length < size →
      db.simpleFind (outdatedQuery now (Int64.ofNat (size - notTried.length - newRecords.length))) = .ok outdated) :
    NoOverlap db size now ↔ Apart db.docs size outdated := by
  have h₁ := h.first.length_eq
  have h₂ := h.second.length_eq
  have h₃ := h.third.length_eq
  unfold NoOverlap Apart
  dsimp only
  by_cases hfull : size ≤ (db.docs.filter Torrent.neverTried).length
  · exact iff_of_true (.inl hfull) (.inl hfull)
  · rw [or_iff_right hfull,or_iff_right hfull]
    apply and_congr_right
    intro _
    by_cases hfull₂ : size ≤ (db.docs.filter Torrent.neverTried).length + (db.docs.filter Torrent.neverUpdated).length
    · have hnone : outdated = [] := List.length_eq_zero_iff.mp (by omega)
      exact iff_of_true (.inl hfull₂) (by simp [hnone])
    · rw [or_iff_right hfull₂]
      have hfind := hquery (by omega)
      rw [show notTried.length = (db.docs.filter Torrent.neverTried).length by omega,
        show newRecords.length = (db.docs.filter Torrent.neverUpdated).length by omega] at hfind
      constructor
      · intro hts
        exact hts outdated hfind
      · intro hold ts hts
        obtain rfl := Except.ok.inj (hfind.symm.trans hts)
        exact hold

theorem getRecords_total {db : Database E} (hfind : ∀ q, ∃ ts, db.simpleFind q = .ok ts) (size : Int64) (now : ℤ) :
    ∃ records, getRecords db size now = .ok records := by
  obtain ⟨notTried,h₁⟩ := hfind (notTriedQuery size)
  unfold getRecords
  rw [h₁]
  dsimp only [Bind.bind,Except.bind]
  split
  · exact ⟨_,rfl⟩
  · obtain ⟨newRecords,h₂⟩ := hfind (newRecordsQuery (size - Int64.ofNat notTried.length))
    rw [h₂]
    dsimp only
    split
    · exact ⟨_,rfl⟩
    · obtain ⟨outdated,h₃⟩ := hfind (outdatedQuery now
        (size - Int64.ofNat notTried.length - Int64.ofNat newRecords.length))
      rw [h₃]
      exact ⟨_,rfl⟩

theorem selects_iff_noOverlap {db : Database E} {size : Int64} (hsize : 1 ≤ size.toInt) {now : ℤ}
    {records : List Torrent} (h : getRecords db size now = .ok records) :
    Selects db.docs size.toInt.toNat now records ↔ NoOverlap db size.toInt.toNat now := by
  obtain ⟨notTried,newRecords,outdated,rfl,hparts,hquery⟩ := getRecords_eq_ok hsize h
  rw [hparts.selects_iff db.distinct,noOverlap_iff hparts hquery]

section Ties
variable {docs : List Torrent} {size : Int64} {now : ℤ}

/-- The limit of the third query. -/
theorem toInt_ofNat_of_le {n k : ℕ} (hn : size.toInt.toNat = n) (hk : k ≤ n) : (Int64.ofNat k).toInt = k := by
  have hhi := size.toInt_lt
  exact Int64.toInt_ofNat_of_lt (by omega)

theorem NoRepeat.noOverlap {db : Database E} (h : NoRepeat db.docs size.toInt.toNat now) :
    NoOverlap db size.toInt.toNat now := by
  generalize hn : size.toInt.toNat = n at h ⊢
  rcases h with hfull | ⟨hnew,hold⟩
  · exact .inl hfull
  · refine .inr ⟨hnew,?_⟩
    by_cases hfull : n ≤ (db.docs.filter Torrent.neverTried).length + (db.docs.filter Torrent.neverUpdated).length
    · exact .inl hfull
    · right
      intro ts hts t ht
      have hlimit := toInt_ofNat_of_le hn (show
        n - (db.docs.filter Torrent.neverTried).length - (db.docs.filter Torrent.neverUpdated).length ≤ n by omega)
      have hfound := db.found hts hlimit (by omega)
      have hlt := hfound.ahead_lt ht
      have hmem := hfound.mem ht
      cases htried : t.neverTried with
      | false => rfl
      | true =>
        have hle := hold t hmem.1 htried hmem.2
        exact absurd hlt (Nat.not_lt.mpr hle)

/-- A database that never fails and takes one torrent before all that a sort does not tell apart from it. -/
def favouring (docs : List Torrent) (distinct : (docs.map Torrent.infoHash).Nodup) (t : Torrent) (ht : t ∈ docs) :
    Database E where
  docs := docs
  distinct := distinct
  simpleFind q := .ok (preferring (Ascending q.sort) q.filter.accepts (maxCount docs q.limit) docs t)
  answers := by
    intro q ts h
    obtain rfl := Except.ok.inj h
    exact Found.of_preferring ht _ _

/-- If fewer results than the limit are older, then such a database returns the torrent. -/
theorem favouring_lists {distinct : (docs.map Torrent.infoHash).Nodup} {t : Torrent} (ht : t ∈ docs) {k : ℕ}
    (hlimit : (Int64.ofNat k).toInt = k) (hout : t.outdated now = true)
    (hroom : (ahead (Ascending .trackerUpdatedAt) (Torrent.outdated now) docs t).length < k) :
    ∃ ts, (favouring docs distinct t ht : Database E).simpleFind (outdatedQuery now (Int64.ofNat k)) = .ok ts ∧
      t ∈ ts := by
  refine ⟨_,rfl,?_⟩
  apply mem_preferring hout
  rw [show (outdatedQuery now (Int64.ofNat k)).limit = Int64.ofNat k from rfl,maxCount_eq hlimit (by omega)]
  exact hroom

/-- If the condition fails, then some database with these torrents lists one twice. -/
theorem exists_overlap (distinct : (docs.map Torrent.infoHash).Nodup) (h : ¬ NoRepeat docs size.toInt.toNat now) :
    ∃ db : Database E, db.docs = docs ∧ (∀ q, ∃ ts, db.simpleFind q = .ok ts) ∧
      ¬ NoOverlap db size.toInt.toNat now := by
  generalize hn : size.toInt.toNat = n at h ⊢
  simp only [NoRepeat,not_or,not_and_or,not_forall] at h
  obtain ⟨hroom,⟨t,ht,htried,hnew⟩ | ⟨t,ht,htried,hout,hahead⟩⟩ := h
  · refine ⟨favouring docs distinct t ht,rfl,fun q => ⟨_,rfl⟩,?_⟩
    rintro (hfull | ⟨hnot,-⟩)
    · exact hroom hfull
    · exact hnew (hnot t ht htried)
  · refine ⟨favouring docs distinct t ht,rfl,fun q => ⟨_,rfl⟩,?_⟩
    rintro (hfull | ⟨-,hfull | hold⟩)
    · exact hroom hfull
    · have hle : n ≤ (docs.filter Torrent.neverTried).length + (docs.filter Torrent.neverUpdated).length := hfull
      omega
    · have hlimit := toInt_ofNat_of_le hn (show
        n - (docs.filter Torrent.neverTried).length - (docs.filter Torrent.neverUpdated).length ≤ n by omega)
      obtain ⟨ts,hts,hmem⟩ := favouring_lists ht hlimit hout (Nat.lt_of_not_le hahead)
      have hfalse := hold ts hts t hmem
      rw [htried] at hfalse
      cases hfalse

end Ties

/-- The list is returned unless a query fails. It selects distinct torrents, those never tried first and as
many as are due, exactly if the three queries do not overlap as far as they are used. It does so whatever the
database makes of equal dates exactly if the torrents themselves leave no room for a repeated one. -/
theorem getRecords_selects_iff_noOverlap (db : Database E) (size : Int64) (hsize : 1 ≤ size.toInt) (now : ℤ) :
    ((∀ q, ∃ ts, db.simpleFind q = .ok ts) → ∃ records, getRecords db size now = .ok records) ∧
    (∀ records, getRecords db size now = .ok records →
      (Selects db.docs size.toInt.toNat now records ↔ NoOverlap db size.toInt.toNat now)) ∧
    ((∀ db' : Database E, db'.docs = db.docs → ∀ records, getRecords db' size now = .ok records →
      Selects db.docs size.toInt.toNat now records) ↔ NoRepeat db.docs size.toInt.toNat now) := by
  refine ⟨fun hfind => getRecords_total hfind size now,fun records h => selects_iff_noOverlap hsize h,?_,?_⟩
  · intro hall
    by_contra hrepeat
    obtain ⟨db',hdocs,hfind,hoverlap⟩ := exists_overlap db.distinct hrepeat
    obtain ⟨records,hrecords⟩ := getRecords_total hfind size now
    have hselects := hall db' hdocs records hrecords
    rw [← hdocs] at hselects
    exact hoverlap ((selects_iff_noOverlap hsize hrecords).mp hselects)
  · intro hrepeat db' hdocs records hrecords
    rw [← hdocs] at hrepeat ⊢
    exact (selects_iff_noOverlap hsize hrecords).mpr hrepeat.noOverlap

section Sample

/-- A database that never fails and sorts by insertion. -/
def ofDocs (docs : List Torrent) (distinct : (docs.map Torrent.infoHash).Nodup) : Database Empty where
  docs := docs
  distinct := distinct
  simpleFind q :=
    .ok (((docs.filter q.filter.accepts).insertionSort (Ascending q.sort)).take (maxCount docs q.limit))
  answers := by
    intro q ts h
    obtain rfl := Except.ok.inj h
    exact Found.of_insertionSort _ _ _

/-- Nothing has been done yet for the torrent. -/
def freshTorrent : Torrent := ⟨[1],some 0,none,none⟩

theorem freshTorrent_distinct : ([freshTorrent].map Torrent.infoHash).Nodup := by decide

/-- The only torrent is listed twice. -/
theorem freshTorrent_listed_twice :
    getRecords (ofDocs [freshTorrent] freshTorrent_distinct) 2 0 = .ok [freshTorrent,freshTorrent] ∧
    ¬ Selects [freshTorrent] 2 0 [freshTorrent,freshTorrent] := by
  refine ⟨rfl,?_⟩
  intro h
  have hdistinct := h.distinct
  revert hdistinct
  decide

/-- One torrent was tried in vain, and one has an old result. -/
def triedTorrents : List Torrent := [⟨[1],some 0,none,some 5⟩,⟨[2],some 0,some 7,some 7⟩]

theorem triedTorrents_distinct : (triedTorrents.map Torrent.infoHash).Nodup := by decide

theorem triedTorrents_selected :
    ∃ records, getRecords (ofDocs triedTorrents triedTorrents_distinct) 3 (7 + sixHours) = .ok records ∧
      Selects triedTorrents 3 (7 + sixHours) records := by
  obtain ⟨htotal,-,hall⟩ := getRecords_selects_iff_noOverlap (ofDocs triedTorrents triedTorrents_distinct) 3
    (by decide) (7 + sixHours)
  obtain ⟨records,hrecords⟩ := htotal (fun q => ⟨_,rfl⟩)
  have hrepeat : NoRepeat triedTorrents 3 (7 + sixHours) := by decide +kernel
  exact ⟨records,hrecords,hall.mpr hrepeat _ rfl records hrecords⟩

end Sample

end DhtOcean.Selection
