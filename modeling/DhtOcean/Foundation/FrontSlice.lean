import Mathlib.Data.Nat.Notation
import Mathlib.Data.List.Basic

/-! # Slices at the front of their array

A slice that starts where its array starts is a length and the whole array behind
it, whose size is the capacity. Appending writes into the array as long as there is
capacity, so that it shows in every slice that shares the array; reslicing may reach
beyond the length, up to the capacity.
-/
namespace DhtOcean.Foundation
variable {α : Type}

structure FrontSlice (α : Type) where
  array : List α
  len : ℕ
  len_le : len ≤ array.length

namespace FrontSlice

def cap (s : FrontSlice α) : ℕ := s.array.length

def contents (s : FrontSlice α) : List α := s.array.take s.len

/-- `make([]T, 0, cap)` -/
def make (zero : α) (cap : ℕ) : FrontSlice α := ⟨List.replicate cap zero,0,Nat.zero_le _⟩

/-- The slice itself as it is afterwards, and the result of `append`. Without capacity the array is
copied; how much larger the copy is than it must be is left to the runtime. -/
def append (s : FrontSlice α) (a : α) : FrontSlice α × FrontSlice α :=
  if h : s.len < s.array.length then
    (⟨s.array.set s.len a,s.len,by rw [List.length_set]; exact s.len_le⟩,
      ⟨s.array.set s.len a,s.len + 1,by rw [List.length_set]; exact h⟩)
  else (s,⟨s.contents ++ [a],s.len + 1,by simp [contents,s.len_le]⟩)

/-- What `s[:n]` shows, if it is within the capacity. -/
def upTo (s : FrontSlice α) (n : ℕ) : Option (List α) := if n ≤ s.cap then some (s.array.take n) else none

theorem length_contents (s : FrontSlice α) : s.contents.length = s.len := by
  rw [contents,List.length_take,Nat.min_eq_left s.len_le]

theorem len_append (s : FrontSlice α) (a : α) : (s.append a).1.len = s.len ∧ (s.append a).2.len = s.len + 1 := by
  unfold append
  split <;> exact ⟨rfl,rfl⟩

/-- Writing behind its end does not change a slice. -/
theorem contents_append (s : FrontSlice α) (a : α) :
    (s.append a).1.contents = s.contents ∧ (s.append a).2.contents = s.contents ++ [a] := by
  unfold append
  split
  · rename_i h
    constructor
    · exact List.take_set_of_le (Nat.le_refl _)
    · rw [contents,List.take_add_one,List.take_set_of_le (Nat.le_refl _),List.getElem?_set_self h]
      rfl
  · refine ⟨rfl,?_⟩
    apply List.take_of_length_le
    simp [length_contents]

theorem upTo_of_le {s : FrontSlice α} {n : ℕ} (h : n ≤ s.len) : s.upTo n = some (s.contents.take n) := by
  have hcap : n ≤ s.cap := Nat.le_trans h s.len_le
  rw [upTo,if_pos hcap,contents,List.take_take,Nat.min_eq_left h]

end FrontSlice

end DhtOcean.Foundation
