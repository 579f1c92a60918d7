import DhtOcean.Foundation.Bytes
import Mathlib.Data.List.Flatten
import Mathlib.Data.List.Pairwise
import Mathlib.Data.List.Perm.Subperm

/-! # Spans of an array

A span is a run of octets of an array, given by its offset and its length. Spans are
packed into a range if they lie in it and no two of them overlap. What is written
inside one of them is seen through no other.
-/
namespace DhtOcean.Foundation

structure Span where
  off : ℕ
  len : ℕ
  deriving DecidableEq, Repr

namespace Span

def read (mem : Bytes) (s : Span) : Bytes := (mem.drop s.off).take s.len

def Inside (s t : Span) : Prop := t.off ≤ s.off ∧ s.off + s.len ≤ t.off + t.len

def Apart (s t : Span) : Prop := s.off + s.len ≤ t.off ∨ t.off + t.len ≤ s.off

/-- The span and the octet behind it. -/
def wide (s : Span) : Span := ⟨s.off,s.len + 1⟩

instance decidableApart (s t : Span) : Decidable (s.Apart t) :=
  inferInstanceAs (Decidable (s.off + s.len ≤ t.off ∨ t.off + t.len ≤ s.off))

instance symm_apart : Std.Symm Apart where
  symm _ _ h := Or.symm h

theorem Apart.inside {s t u : Span} (h : s.Apart t) (hu : u.Inside t) : s.Apart u := by
  simp only [Apart,Inside] at *
  omega

/-- The octet behind a span is seen through none of the others, and not through the span itself. -/
theorem apart_behind {ss : List Span} (h : (ss.map wide).Pairwise Apart) {s t : Span} (hs : s ∈ ss) (ht : t ∈ ss) :
    t.Apart ⟨s.off + s.len,1⟩ := by
  by_cases heq : t = s
  · exact .inl (heq ▸ le_rfl)
  · have : Std.Symm (fun s t : Span => s.wide.Apart t.wide) := ⟨fun _ _ h => Or.symm h⟩
    have := (List.pairwise_map.mp h).forall ht hs heq
    simp only [Apart,wide] at *
    omega

theorem Apart.of_wide {s t : Span} (h : s.wide.Apart t.wide) : s.Apart t := by
  simp only [Apart,wide] at *
  omega

/-- What is written apart from a span does not change what it shows. -/
theorem read_overwrite {mem b : Bytes} {off : ℕ} {s : Span} (hb : off + b.length ≤ mem.length)
    (hs : s.Apart ⟨off,b.length⟩) : s.read (overwrite mem off b) = s.read mem := by
  apply List.ext_getElem?
  intro j
  simp only [read,List.getElem?_take,List.getElem?_drop,getElem?_overwrite hb]
  split
  · simp only [Apart] at hs
    rw [if_neg (by omega)]
  · rfl

end Span

/-- The spans show the same in both memories. -/
def Unchanged (ss : List Span) (mem mem' : Bytes) : Prop := ∀ s ∈ ss, s.read mem' = s.read mem

theorem Unchanged.refl (ss : List Span) (mem : Bytes) : Unchanged ss mem mem := fun _ _ => rfl

theorem Unchanged.trans {ss : List Span} {mem mem' mem'' : Bytes} (h : Unchanged ss mem mem')
    (h' : Unchanged ss mem' mem'') : Unchanged ss mem mem'' := fun s hs => (h' s hs).trans (h s hs)

/-- The spans lie between these positions, one apart from the other. -/
structure Packed (lo hi : ℕ) (ss : List Span) : Prop where
  within : ∀ s ∈ ss, lo ≤ s.off ∧ s.off + s.len ≤ hi
  apart : ss.Pairwise Span.Apart

namespace Packed
variable {lo mid hi : ℕ} {ss ts : List Span}

theorem nil : Packed lo hi [] := ⟨by simp,.nil⟩

theorem single {s : Span} (hlo : lo ≤ s.off) (hhi : s.off + s.len ≤ hi) : Packed lo hi [s] := by
  refine ⟨?_,List.pairwise_singleton _ _⟩
  intro t ht
  obtain rfl := List.mem_singleton.mp ht
  exact ⟨hlo,hhi⟩

theorem mono {lo' hi' : ℕ} (h : Packed lo hi ss) (hlo : lo' ≤ lo) (hhi : hi ≤ hi') : Packed lo' hi' ss := by
  refine ⟨?_,h.apart⟩
  intro s hs
  have := h.within s hs
  omega

theorem append (h : Packed lo mid ss) (h' : Packed mid hi ts) (hlo : lo ≤ mid) (hhi : mid ≤ hi) :
    Packed lo hi (ss ++ ts) := by
  refine ⟨?_,List.pairwise_append.mpr ⟨h.apart,h'.apart,?_⟩⟩
  · intro s hs
    rcases List.mem_append.mp hs with hs | hs
    · exact (h.mono le_rfl hhi).within s hs
    · exact (h'.mono hlo le_rfl).within s hs
  · intro s hs t ht
    have hs := (h.within s hs).2
    have ht := (h'.within t ht).1
    exact .inl (hs.trans ht)

theorem of_subperm (h : Packed lo hi ss) (hts : ts.Subperm ss) : Packed lo hi ts := by
  obtain ⟨us,hus,hsub⟩ := hts
  refine ⟨fun s hs => h.within s (hsub.subset (hus.mem_iff.mpr hs)),?_⟩
  exact (hus.pairwise_iff (fun {_ _} hst => Or.symm hst)).mp (h.apart.sublist hsub)

end Packed

theorem subperm_flatMap {α β : Type*} {l l' : List α} (h : l.Subperm l') (f : α → List β) :
    (l.flatMap f).Subperm (l'.flatMap f) := by
  obtain ⟨m,hm,hsub⟩ := h
  exact ⟨m.flatMap f,hm.flatMap_right f,hsub.flatMap f⟩

end DhtOcean.Foundation
