import Mathlib.Data.List.Lex
import Mathlib.Data.Nat.Digits.Lemmas

/-! # Byte strings

Strings and byte slices are lists of octets, ordered bytewise. Texts of a
program are written as string literals and read as their ASCII octets.
-/
namespace DhtOcean.Foundation

abbrev Bytes := List UInt8

/-- The octets of an ASCII text. -/
def ascii (s : String) : Bytes := s.toList.map Char.toUInt8

instance octetOrder : LinearOrder UInt8 where
  le_refl := UInt8.le_refl
  le_trans _ _ _ := UInt8.le_trans
  le_antisymm _ _ := UInt8.le_antisymm
  le_total := UInt8.le_total
  lt_iff_le_not_ge a b := by
    simp only [UInt8.le_iff_toNat_le,UInt8.lt_iff_toNat_lt]
    omega
  toDecidableLE := inferInstance
  toDecidableEq := inferInstance
  toDecidableLT := inferInstance

/-- The first index from `i` on that holds `c`, or the length when there is none. -/
def indexFrom (c : UInt8) (buf : Bytes) (i : ℕ) : ℕ := i + (buf.drop i).findIdx (· == c)

theorem le_indexFrom (c : UInt8) (buf : Bytes) (i : ℕ) : i ≤ indexFrom c buf i := Nat.le_add_right _ _

theorem findIdx_of_notMem {c : UInt8} {run : Bytes} (hrun : c ∉ run) : run.findIdx (· == c) = run.length := by
  apply List.findIdx_eq_length_of_false
  intro x hx
  simp only [beq_eq_false_iff_ne]
  exact fun h => hrun (h ▸ hx)

/-- A run of other octets is skipped up to the first occurrence. -/
theorem indexFrom_eq {c : UInt8} {buf run suf : Bytes} {i : ℕ} (h : buf.drop i = run ++ c :: suf)
    (hrun : c ∉ run) : indexFrom c buf i = i + run.length := by
  unfold indexFrom
  rw [h,List.findIdx_append]
  simp [findIdx_of_notMem hrun,List.findIdx_cons]

/-- Without an occurrence the scan stops at the end. -/
theorem indexFrom_absent {c : UInt8} {buf : Bytes} {i : ℕ} (hrun : c ∉ buf.drop i) :
    indexFrom c buf i = i + (buf.drop i).length := by
  unfold indexFrom
  rw [findIdx_of_notMem hrun]

/-- The slice expression from `i` to the end of a known run. -/
theorem drop_take_of_drop {buf run suf : Bytes} {i : ℕ} (h : buf.drop i = run ++ suf) :
    (buf.take (i + run.length)).drop i = run := by
  rw [List.drop_take,h,Nat.add_sub_cancel_left,List.take_left]

theorem drop_add_of_drop {buf run suf : Bytes} {i : ℕ} (h : buf.drop i = run ++ suf) :
    buf.drop (i + run.length) = suf := by
  rw [← List.drop_drop,h,List.drop_left]

theorem drop_succ_of_drop {buf rest : Bytes} {b : UInt8} {i : ℕ} (h : buf.drop i = b :: rest) :
    buf.drop (i+1) = rest := drop_add_of_drop (i := i) (show buf.drop i = [b] ++ rest from h)

theorem getElem?_of_drop {buf rest : Bytes} {b : UInt8} {i : ℕ} (h : buf.drop i = b :: rest) :
    buf[i]? = some b := by
  have h₀ : (buf.drop i)[0]? = some b := by rw [h]; rfl
  simpa using h₀

theorem drop_of_getElem? {buf : Bytes} {b : UInt8} {i : ℕ} (h : buf[i]? = some b) :
    buf.drop i = b :: buf.drop (i+1) := by
  obtain ⟨hi,hb⟩ := List.getElem?_eq_some_iff.mp h
  rw [List.drop_eq_getElem_cons hi,hb]

theorem length_of_drop {buf rest : Bytes} {i : ℕ} (h : buf.drop i = rest) (hne : rest ≠ []) :
    i + rest.length = buf.length := by
  have hl := congrArg List.length h
  rw [List.length_drop] at hl
  have hpos := List.length_pos_iff.mpr hne
  omega

/-- The octets that the scan passes over, with what it stopped at. -/
theorem drop_eq_indexFrom (c : UInt8) (buf : Bytes) (i : ℕ) :
    ∃ run, c ∉ run ∧ indexFrom c buf i = i + run.length ∧
      (buf.drop i = run ∨ ∃ suf, buf.drop i = run ++ c :: suf) := by
  unfold indexFrom
  generalize buf.drop i = rest
  induction rest with
  | nil => exact ⟨[],by simp⟩
  | cons b rest ih =>
    obtain ⟨run,hc,hlen,hrest⟩ := ih
    by_cases hb : b = c
    · subst hb
      exact ⟨[],by simp [List.findIdx_cons]⟩
    · refine ⟨b :: run,by simp [hc,Ne.symm hb],?_,?_⟩
      · have hbc : (b == c) = false := by simpa using hb
        simp only [List.findIdx_cons,hbc,cond_false,List.length_cons]
        omega
      · rcases hrest with rfl | ⟨suf,rfl⟩
        · exact Or.inl rfl
        · exact Or.inr ⟨suf,rfl⟩

/-- The octets of `mem` after those of `b` were copied to `off`. -/
def overwrite (mem : Bytes) (off : ℕ) (b : Bytes) : Bytes := mem.take off ++ b ++ mem.drop (off + b.length)

theorem length_overwrite {mem b : Bytes} {off : ℕ} (h : off + b.length ≤ mem.length) :
    (overwrite mem off b).length = mem.length := by
  simp only [overwrite,List.length_append,List.length_take,List.length_drop]
  omega

theorem getElem?_overwrite {mem b : Bytes} {off : ℕ} (h : off + b.length ≤ mem.length) (j : ℕ) :
    (overwrite mem off b)[j]? = if off ≤ j ∧ j < off + b.length then b[j - off]? else mem[j]? := by
  have hoff : (mem.take off).length = off := List.length_take_of_le (by omega)
  unfold overwrite
  by_cases h₁ : j < off
  · rw [if_neg (by omega),List.append_assoc,List.getElem?_append_left (by omega),List.getElem?_take_of_lt h₁]
  by_cases h₂ : j < off + b.length
  · rw [if_pos ⟨by omega,h₂⟩,List.append_assoc,List.getElem?_append_right (by omega),hoff,
      List.getElem?_append_left (by omega)]
  · rw [if_neg (by omega),List.getElem?_append_right (by rw [List.length_append]; omega),List.length_append,
      hoff,List.getElem?_drop]
    congr 1
    omega

/-- A list that was written element by element is read back. -/
theorem mapM_map_some {A B : Type} {f : A → B} {g : B → Option A} {l : List A} (h : ∀ a ∈ l, g (f a) = some a) :
    (l.map f).mapM g = some l := by
  induction l with
  | nil => rfl
  | cons a l ih =>
    have hl := ih (fun b hb => h b (List.mem_cons_of_mem _ hb))
    rw [List.map_cons,List.mapM_cons,h a List.mem_cons_self,hl]
    rfl

theorem forall₂_of_mapM {A B : Type} {f : A → Option B} {xs : List A} {ys : List B}
    (h : xs.mapM f = some ys) : List.Forall₂ (fun x y => f x = some y) xs ys := by
  induction xs generalizing ys with
  | nil =>
    cases h
    exact .nil
  | cons x xs ih =>
    rw [List.mapM_cons] at h
    obtain ⟨y,hy,h⟩ := Option.bind_eq_some_iff.mp h
    obtain ⟨zs,hzs,h⟩ := Option.bind_eq_some_iff.mp h
    cases h
    exact .cons hy (ih hzs)

end DhtOcean.Foundation
