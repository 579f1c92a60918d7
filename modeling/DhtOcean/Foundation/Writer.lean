import Mathlib.Data.Int.Notation
import Mathlib.Data.List.Basic

/-! # Buffered writers

A buffered writer collects what is written to it and passes it on when its buffer
overflows. How much it holds back depends only on its capacity and on the lengths
of the writes.
-/
namespace DhtOcean.Foundation
variable {α : Type}

/-- The underlying writer: what it got so far, and which of its writes succeed. -/
structure Sink (α : Type) where
  accepts : ℕ → Bool
  calls : ℕ
  out : List α

structure Writer (α : Type) where
  size : ℕ
  buf : List α
  sink : Sink α
  pos : 0 < size
  fits : buf.length ≤ size

def defaultBufSize : ℕ := 4096

/-- The underlying writer takes all of `p` or fails. -/
def Sink.write (p : List α) (s : Sink α) : Option (Sink α) :=
  if s.accepts s.calls then some { s with calls := s.calls + 1, out := s.out ++ p } else none

theorem Sink.write_out {p : List α} {s s' : Sink α} (h : s.write p = some s') : s'.out = s.out ++ p := by
  simp only [write,Option.ite_none_right_eq_some,Option.some.injEq] at h
  rw [← h.2]

theorem Sink.write_grows {p : List α} {s s' : Sink α} (h : s.write p = some s') : s.out <+: s'.out := by
  rw [Sink.write_out h]
  exact List.prefix_append _ _

namespace Writer

def newWriterSize (sink : Sink α) (size : ℤ) : Writer α where
  size := if size ≤ 0 then defaultBufSize else size.toNat
  buf := []
  sink := sink
  pos := by
    split
    · decide
    · omega
  fits := Nat.zero_le _

def available (w : Writer α) : ℕ := w.size - w.buf.length

theorem length_append_le (w : Writer α) {p : List α} (h : p.length ≤ w.available) :
    (w.buf ++ p).length ≤ w.size := by
  have hfits := w.fits
  rw [available] at h
  rw [List.length_append]
  omega

/-- `Write`, which fails with the underlying writer. The loop of the source runs at most twice:
filling the buffer empties it, and then the rest fits or is passed on as it is. -/
def write (p : List α) (w : Writer α) : Option (Writer α) :=
  if h : p.length ≤ w.available then
    some { w with buf := w.buf ++ p, fits := w.length_append_le h }
  else if w.buf.isEmpty then do
    let sink ← w.sink.write p
    return { w with sink := sink }
  else do
    let sink ← w.sink.write (w.buf ++ p.take w.available)
    if h : (p.drop w.available).length ≤ w.size then
      return { w with sink := sink, buf := p.drop w.available, fits := h }
    else do
      let sink ← sink.write (p.drop w.available)
      return { w with sink := sink, buf := [], fits := Nat.zero_le _ }

/-- How many elements a buffer of capacity `size` that holds `k` keeps back after a write of `n`. -/
def held (size k n : ℕ) : ℕ :=
  if k + n ≤ size then k + n
  else if k = 0 then 0
  else if k + n ≤ 2*size then k + n - size
  else 0

theorem held_le {size k n : ℕ} : held size k n ≤ size := by
  unfold held
  split
  · omega
  · split
    · omega
    · split <;> omega

/-- A write leaves nothing behind when it does not fit twice over, or when there is nothing to leave. -/
theorem held_eq_zero_iff {size k n : ℕ} (hk : k ≤ size) :
    held size k n = 0 ↔ if n = 0 then k = 0 else if k = 0 then size < n else 2*size < k + n := by
  unfold held
  split_ifs <;> omega

/-- What a write does: the elements keep their order, and those held back are the last. -/
theorem write_spec {p : List α} {w w' : Writer α} (h : w.write p = some w') :
    w'.size = w.size ∧ w'.sink.out ++ w'.buf = w.sink.out ++ w.buf ++ p ∧
      w'.buf.length = held w.size w.buf.length p.length := by
  have hfits := w.fits
  unfold write available at h
  unfold held
  split at h
  · rename_i hp
    obtain rfl := Option.some.inj h
    refine ⟨rfl,(List.append_assoc _ _ _).symm,?_⟩
    rw [if_pos (by omega),List.length_append]
  · rename_i hp
    rw [if_neg (by omega)]
    split at h
    · rename_i hempty
      have hbuf : w.buf = [] := List.isEmpty_iff.mp hempty
      obtain ⟨sink,hsink,h⟩ := Option.bind_eq_some_iff.mp h
      obtain rfl := Option.some.inj h
      refine ⟨rfl,?_,by simp [hbuf]⟩
      simp [hbuf,Sink.write_out hsink]
    · rename_i hempty
      have hne : w.buf.length ≠ 0 := by simpa [List.isEmpty_iff] using hempty
      rw [if_neg hne]
      obtain ⟨sink,hsink,h⟩ := Option.bind_eq_some_iff.mp h
      have hout := Sink.write_out hsink
      split at h
      · rename_i hrest
        obtain rfl := Option.some.inj h
        refine ⟨rfl,?_,?_⟩
        · simp only [hout,List.append_assoc,List.take_append_drop]
        · rw [List.length_drop] at hrest ⊢
          rw [if_pos (by omega)]
          omega
      · rename_i hrest
        obtain ⟨sink',hsink',h⟩ := Option.bind_eq_some_iff.mp h
        obtain rfl := Option.some.inj h
        refine ⟨rfl,?_,?_⟩
        · simp only [Sink.write_out hsink',hout,List.append_assoc,List.take_append_drop,List.append_nil]
        · rw [List.length_drop] at hrest
          rw [if_neg (by omega)]
          rfl

/-- What has been passed on stays. -/
theorem write_grows {p : List α} {w w' : Writer α} (h : w.write p = some w') : w.sink.out <+: w'.sink.out := by
  unfold write at h
  split at h
  · cases h
    exact List.prefix_rfl
  · split at h
    · obtain ⟨sink,hsink,h⟩ := Option.bind_eq_some_iff.mp h
      cases h
      exact Sink.write_grows hsink
    · obtain ⟨sink,hsink,h⟩ := Option.bind_eq_some_iff.mp h
      split at h
      · cases h
        exact Sink.write_grows hsink
      · obtain ⟨sink',hsink',h⟩ := Option.bind_eq_some_iff.mp h
        cases h
        exact (Sink.write_grows hsink).trans (Sink.write_grows hsink')

/-- A writer over one that takes everything never fails. -/
theorem write_total (p : List α) {w : Writer α} (h : ∀ n, w.sink.accepts n = true) :
    ∃ w', w.write p = some w' ∧ ∀ n, w'.sink.accepts n = true := by
  have hsink : ∀ {s : Sink α} (q : List α), (∀ n, s.accepts n = true) →
      ∃ s', s.write q = some s' ∧ ∀ n, s'.accepts n = true := by
    intro s q hs
    exact ⟨_,if_pos (hs _),hs⟩
  unfold write
  split
  · exact ⟨_,rfl,h⟩
  · split
    · obtain ⟨s₁,h₁,hs₁⟩ := hsink p h
      exact ⟨_,by rw [h₁]; rfl,hs₁⟩
    · obtain ⟨s₁,h₁,hs₁⟩ := hsink (w.buf ++ p.take w.available) h
      obtain ⟨s₂,h₂,hs₂⟩ := hsink (p.drop w.available) hs₁
      rw [h₁]
      dsimp only [Option.bind_eq_bind,Option.bind_some]
      split
      · exact ⟨_,rfl,hs₁⟩
      · exact ⟨_,by rw [h₂]; rfl,hs₂⟩

end Writer

end DhtOcean.Foundation
