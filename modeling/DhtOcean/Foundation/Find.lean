import Mathlib.Data.List.Sort

/-! # Queries that filter, sort and limit

A query takes the elements that pass its filter, orders them and returns the first
of them. Elements that the order does not tell apart may come in any order.
-/
namespace DhtOcean.Foundation
variable {α : Type*} {r : α → α → Prop} {p : α → Bool} {n : ℕ} {docs ts : List α}

/-- The list holds the first `n` elements that pass the filter, in some order that `r` allows. -/
def Found (r : α → α → Prop) (p : α → Bool) (n : ℕ) (docs ts : List α) : Prop :=
  ∃ sorted : List α, sorted.Perm (docs.filter p) ∧ sorted.Pairwise r ∧ ts = sorted.take n

namespace Found

theorem length_eq (h : Found r p n docs ts) : ts.length = min n (docs.filter p).length := by
  obtain ⟨sorted,hperm,-,rfl⟩ := h
  rw [List.length_take,hperm.length_eq]

theorem mem (h : Found r p n docs ts) {a : α} (ha : a ∈ ts) : a ∈ docs ∧ p a = true := by
  obtain ⟨sorted,hperm,-,rfl⟩ := h
  exact List.mem_filter.mp (hperm.subset (List.mem_of_mem_take ha))

theorem nodup (h : Found r p n docs ts) (hdocs : docs.Nodup) : ts.Nodup := by
  obtain ⟨sorted,hperm,-,rfl⟩ := h
  exact (hperm.nodup_iff.mpr (hdocs.filter p)).sublist (List.take_sublist n sorted)

/-- A query whose limit is not reached misses nothing. -/
theorem mem_of_length_lt (h : Found r p n docs ts) (hn : ts.length < n) {a : α} (ha : a ∈ docs) (hp : p a = true) :
    a ∈ ts := by
  obtain ⟨sorted,hperm,-,rfl⟩ := h
  rw [List.length_take] at hn
  rw [List.take_of_length_le (by omega)]
  exact hperm.mem_iff.mpr (List.mem_filter.mpr ⟨ha,hp⟩)

/-- Whatever passes the filter, something at least as early is returned. -/
theorem exists_first (h : Found r p n docs ts) (hn : 0 < n) {a : α} (ha : a ∈ docs) (hp : p a = true) :
    ∃ b ∈ ts, b = a ∨ r b a := by
  obtain ⟨sorted,hperm,hsorted,rfl⟩ := h
  have hmem : a ∈ sorted := hperm.mem_iff.mpr (List.mem_filter.mpr ⟨ha,hp⟩)
  cases sorted with
  | nil => cases hmem
  | cons b sorted =>
    refine ⟨b,?_,?_⟩
    · obtain ⟨m,rfl⟩ := Nat.exists_eq_add_of_lt hn
      rw [List.take_succ_cons]
      exact List.mem_cons_self
    · rcases List.mem_cons.mp hmem with rfl | hmem
      · exact .inl rfl
      · exact .inr (List.rel_of_pairwise_cons hsorted hmem)

/-- If something that passes the filter is not returned, then the limit is reached with what is at least
as early. -/
theorem all_first (h : Found r p n docs ts) {a : α} (ha : a ∈ docs) (hp : p a = true) (hts : a ∉ ts) :
    ts.length = n ∧ ∀ b ∈ ts, r b a := by
  obtain ⟨sorted,hperm,hsorted,rfl⟩ := h
  have hmem : a ∈ sorted := hperm.mem_iff.mpr (List.mem_filter.mpr ⟨ha,hp⟩)
  rw [← List.take_append_drop n sorted] at hsorted
  have hdrop : a ∈ sorted.drop n := by
    rw [← List.take_append_drop n sorted] at hmem
    exact (List.mem_append.mp hmem).resolve_left hts
  refine ⟨?_,fun b hb => (List.pairwise_append.mp hsorted).2.2 b hb a hdrop⟩
  have hlen := List.length_pos_of_mem hdrop
  rw [List.length_drop] at hlen
  rw [List.length_take]
  omega

/-- A stable sort answers every query. -/
theorem of_insertionSort [DecidableRel r] [Std.Total r] [IsTrans α r] (p : α → Bool) (n : ℕ) (docs : List α) :
    Found r p n docs (((docs.filter p).insertionSort r).take n) :=
  ⟨_,List.perm_insertionSort r _,List.pairwise_insertionSort r _,rfl⟩

end Found

section Ahead
variable [DecidableRel r] {a : α}

/-- What passes the filter and comes before `a` in every order that `r` allows. -/
def ahead (r : α → α → Prop) [DecidableRel r] (p : α → Bool) (docs : List α) (a : α) : List α :=
  (docs.filter p).filter (fun b => ¬ r a b)

/-- A stable sort that takes `a` before all that the order does not tell apart from it. -/
def preferring (r : α → α → Prop) [DecidableRel r] [DecidableEq α] (p : α → Bool) (n : ℕ) (docs : List α) (a : α) :
    List α :=
  (((a :: docs.erase a).filter p).insertionSort r).take n

/-- What is returned has fewer elements before it than the limit. -/
theorem Found.ahead_lt [Std.Refl r] (h : Found r p n docs ts) (ha : a ∈ ts) : (ahead r p docs a).length < n := by
  obtain ⟨sorted,hperm,hsorted,rfl⟩ := h
  obtain ⟨xs,ys,hsplit⟩ := List.append_of_mem ha
  have hcut : sorted = xs ++ (a :: (ys ++ sorted.drop n)) := by
    rw [← List.cons_append,← List.append_assoc,← hsplit,List.take_append_drop]
  have hbehind : (a :: (ys ++ sorted.drop n)).filter (fun b => ¬ r a b) = [] := by
    rw [hcut] at hsorted
    have hafter := List.pairwise_cons.mp (List.pairwise_append.mp hsorted).2.1
    rw [List.filter_eq_nil_iff]
    intro b hb
    rcases List.mem_cons.mp hb with rfl | hb
    · simp [Std.Refl.refl b]
    · simp [hafter.1 b hb]
  have hlen : (ahead r p docs a).length = (xs.filter (fun b => ¬ r a b)).length := by
    rw [ahead,← (hperm.filter _).length_eq,hcut,List.filter_append,hbehind,List.append_nil]
  have hxs := xs.length_filter_le (fun b => ¬ r a b)
  have htake := congrArg List.length hsplit
  rw [List.length_take,List.length_append,List.length_cons] at htake
  omega

variable [DecidableEq α] [Std.Total r] [IsTrans α r]

theorem Found.of_preferring (ha : a ∈ docs) (p : α → Bool) (n : ℕ) : Found r p n docs (preferring r p n docs a) := by
  refine ⟨_,?_,List.pairwise_insertionSort r _,rfl⟩
  exact (List.perm_insertionSort r _).trans ((List.perm_cons_erase ha).symm.filter p)

omit [Std.Total r] [IsTrans α r] in
/-- If fewer elements come before one than the limit, then some answer has it. -/
theorem mem_preferring (hp : p a = true) (hn : (ahead r p docs a).length < n) :
    a ∈ preferring r p n docs a := by
  rw [preferring,List.filter_cons_of_pos hp,List.insertionSort_cons_eq_take_drop]
  generalize hrest : ((docs.erase a).filter p).insertionSort r = rest
  have hfront : (rest.takeWhile (fun b => ¬ r a b)).length ≤ (ahead r p docs a).length := by
    have hall : (rest.takeWhile (fun b => ¬ r a b)).filter (fun b => ¬ r a b) = rest.takeWhile (fun b => ¬ r a b) := by
      rw [List.filter_eq_self]
      intro b hb
      exact List.all_eq_true.mp List.all_takeWhile b hb
    rw [← hall,ahead]
    calc
      _ ≤ (rest.filter (fun b => ¬ r a b)).length := ((List.takeWhile_sublist _).filter _).length_le
      _ = (((docs.erase a).filter p).filter (fun b => ¬ r a b)).length := by
        rw [← hrest,((List.perm_insertionSort r _).filter _).length_eq]
      _ ≤ _ := ((List.erase_sublist.filter p).filter _).length_le
  rw [List.take_append,List.mem_append]
  right
  obtain ⟨k,hk⟩ := Nat.exists_eq_succ_of_ne_zero (show n - (rest.takeWhile (fun b => ¬ r a b)).length ≠ 0 by omega)
  rw [hk,List.take_succ_cons]
  exact List.mem_cons_self

end Ahead

end DhtOcean.Foundation
