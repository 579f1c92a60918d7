import DhtOcean.Foundation.Outcome
import Mathlib.Algebra.BigOperators.Group.List.Basic
import Mathlib.Algebra.GroupWithZero.Nat

/-! # Items on a stream

Items stand on a stream one behind the other, and a loop takes them off until its
first error. Of a stream that stops early it has taken those that were complete.
-/
namespace DhtOcean.Foundation
variable {σ ε δ α : Type}

/-- A loop that only a failed iteration ends, with the state in which that one began. -/
def untilError (next : σ → Outcome ε σ) : ℕ → σ → σ × Outcome ε Unit
  | 0, s => (s,.hang)
  | rounds+1, s =>
    match next s with
    | .ok s' => untilError next rounds s'
    | .error e => (s,.error e)
    | .panic p => (s,.panic p)
    | .hang => (s,.hang)

section Complete
variable (len : δ → ℕ)

/-- The items that end within the first `n` places of the stream. -/
def completeWithin : List δ → ℕ → List δ
  | [], _ => []
  | d :: ds, n => if len d ≤ n then d :: completeWithin ds (n - len d) else []

/-- With more of the stream the items only become more. -/
theorem completeWithin_mono (ds : List δ) {n m : ℕ} (h : n ≤ m) :
    completeWithin len ds n <+: completeWithin len ds m := by
  induction ds generalizing n m with
  | nil => exact List.prefix_rfl
  | cons d ds ih =>
    rw [completeWithin,completeWithin]
    split
    · rename_i hd
      rw [if_pos (Nat.le_trans hd h),List.prefix_cons_inj]
      exact ih (Nat.sub_le_sub_right h _)
    · exact List.nil_prefix

theorem completeWithin_all {ds : List δ} {n : ℕ} (h : (ds.map len).sum ≤ n) : completeWithin len ds n = ds := by
  induction ds generalizing n with
  | nil => rfl
  | cons d ds ih =>
    rw [List.map_cons,List.sum_cons] at h
    rw [completeWithin,if_pos (by omega),ih (by omega)]

/-- An item that is put on the stream behind its end is not complete before more of the stream is there. -/
theorem completeWithin_snoc {ds : List δ} {d : δ} {n : ℕ} (hd : 0 < len d) (hn : n ≤ (ds.map len).sum) :
    completeWithin len (ds ++ [d]) n = completeWithin len ds n := by
  induction ds generalizing n with
  | nil =>
    obtain rfl : n = 0 := Nat.le_zero.mp hn
    exact if_neg (Nat.not_le.mpr hd)
  | cons x ds ih =>
    rw [List.map_cons,List.sum_cons] at hn
    rw [List.cons_append,completeWithin,completeWithin,ih (by omega)]

theorem completeWithin_front (ds : List δ) (n : ℕ) : completeWithin len ds n <+: ds := by
  have hmono := completeWithin_mono len ds (Nat.le_add_right n (ds.map len).sum)
  rwa [completeWithin_all len (Nat.le_add_left _ n)] at hmono

variable {len}

theorem length_completeWithin_le (hlen : ∀ d, 0 < len d) (ds : List δ) (n : ℕ) :
    (completeWithin len ds n).length ≤ n := by
  induction ds generalizing n with
  | nil => exact Nat.zero_le _
  | cons d ds ih =>
    rw [completeWithin]
    split
    · have hd := hlen d
      have hrest := ih (n - len d)
      rw [List.length_cons]
      omega
    · exact Nat.zero_le _

/-- If no more than `k` places of the stream are missing, then the items behind the first incomplete
one are within these. -/
theorem sum_drop_completeWithin_le {ds : List δ} {n k : ℕ} (h : (ds.map len).sum ≤ n + k) :
    ((ds.drop ((completeWithin len ds n).length + 1)).map len).sum ≤ k := by
  induction ds generalizing n with
  | nil => exact Nat.zero_le _
  | cons d ds ih =>
    rw [List.map_cons,List.sum_cons] at h
    rw [completeWithin]
    split
    · rw [List.length_cons,List.drop_succ_cons]
      exact ih (by omega)
    · rw [List.length_nil,List.drop_succ_cons,List.drop_zero]
      omega

end Complete

section Queue

/-- What a stream of items amounts to: those that are under way, and those that have come out. -/
structure Queue (δ : Type) where
  waiting : List δ
  delivered : List δ

/-- This item joins at the end, or some come out at the front, in order. -/
inductive Queue.Step : Queue δ → Option δ → Queue δ → Prop
  | enqueue (q : Queue δ) (d : δ) : Step q (some d) ⟨q.waiting ++ [d],q.delivered⟩
  | deliver (ds waiting delivered : List δ) : Step ⟨ds ++ waiting,delivered⟩ none ⟨waiting,delivered ++ ds⟩

/-- The queue whose items so far are `ds`, of which those within the first `n` places are out. -/
def streamQueue (len : δ → ℕ) (ds : List δ) (n : ℕ) : Queue δ where
  waiting := ds.drop (completeWithin len ds n).length
  delivered := completeWithin len ds n

variable {len : δ → ℕ}

theorem drop_completeWithin (len : δ → ℕ) (ds : List δ) (n : ℕ) :
    completeWithin len ds n ++ ds.drop (completeWithin len ds n).length = ds := by
  obtain ⟨rest,hrest⟩ := completeWithin_front len ds n
  have hdrop := congrArg (List.drop (completeWithin len ds n).length) hrest
  rw [List.drop_left] at hdrop
  rw [← hdrop,hrest]

theorem streamQueue_snoc {ds : List δ} {d : δ} {n : ℕ} (hd : 0 < len d) (hn : n ≤ (ds.map len).sum) :
    Queue.Step (streamQueue len ds n) (some d) (streamQueue len (ds ++ [d]) n) := by
  have hlen := (completeWithin_front len ds n).length_le
  have hnext : streamQueue len (ds ++ [d]) n = ⟨(streamQueue len ds n).waiting ++ [d],completeWithin len ds n⟩ := by
    rw [streamQueue,completeWithin_snoc len hd hn,List.drop_append_of_le_length hlen]
    rfl
  rw [hnext]
  exact .enqueue _ d

theorem streamQueue_mono (ds : List δ) {n m : ℕ} (h : n ≤ m) :
    Queue.Step (streamQueue len ds n) none (streamQueue len ds m) := by
  obtain ⟨more,hmore⟩ := completeWithin_mono len ds h
  have hsplit := drop_completeWithin len ds m
  rw [← hmore,List.append_assoc] at hsplit
  have hwaiting : ds.drop (completeWithin len ds n).length =
      more ++ ds.drop (completeWithin len ds m).length := by
    have hdrop := congrArg (List.drop (completeWithin len ds n).length) hsplit
    rw [List.drop_left] at hdrop
    rw [← hdrop,hmore]
  have hstep := Queue.Step.deliver more (ds.drop (completeWithin len ds m).length) (completeWithin len ds n)
  rw [← hwaiting,hmore] at hstep
  exact hstep

end Queue

/-- An iteration takes the next item off the stream if it is there as a whole, and fails otherwise.
`Ready` is what it needs to know of the items to come. -/
structure Deframes (next : σ → Outcome ε σ) (pending : σ → List α) (out : σ → List δ) (octets : δ → List α)
    (Ready : σ → List δ → Prop) : Prop where
  whole : ∀ {s d ds rest}, Ready s (d :: ds) → pending s = octets d ++ rest →
    ∃ s', next s = .ok s' ∧ pending s' = rest ∧ out s' = out s ++ [d] ∧ Ready s' ds
  cut : ∀ {s d ds more}, Ready s (d :: ds) → more ≠ [] → pending s ++ more = octets d → ∃ e, next s = .error e
  ended : ∀ {s}, pending s = [] → ∃ e, next s = .error e

/-- The front of a stream of items ends within its first item or goes on behind it. -/
theorem front_cases {w x y : List α} (h : w <+: x ++ y) :
    (w.length < x.length ∧ ∃ more, more ≠ [] ∧ w ++ more = x) ∨
    (x.length ≤ w.length ∧ ∃ rest, w = x ++ rest ∧ rest <+: y) := by
  by_cases hlen : x.length ≤ w.length
  · obtain ⟨rest,rfl⟩ := List.prefix_of_prefix_length_le (List.prefix_append x y) h hlen
    exact .inr ⟨hlen,rest,rfl,(List.prefix_append_right_inj x).mp h⟩
  · have hlt : w.length < x.length := Nat.lt_of_not_le hlen
    obtain ⟨more,rfl⟩ := List.prefix_of_prefix_length_le h (List.prefix_append x y) (Nat.le_of_lt hlt)
    refine .inl ⟨hlt,more,?_,rfl⟩
    rintro rfl
    simp at hlt

/-- Wherever the stream stops, the loop fails there and has taken the complete items off it. -/
theorem Deframes.untilError_front {next : σ → Outcome ε σ} {pending : σ → List α} {out : σ → List δ}
    {octets : δ → List α} {Ready : σ → List δ → Prop} (h : Deframes next pending out octets Ready) {ds : List δ}
    {s : σ} {rounds : ℕ} (hready : Ready s ds) (hpending : pending s <+: (ds.map octets).flatten)
    (hrounds : (completeWithin (fun d => (octets d).length) ds (pending s).length).length < rounds) :
    ∃ s' e, untilError next rounds s = (s',.error e) ∧
      out s' = out s ++ completeWithin (fun d => (octets d).length) ds (pending s).length := by
  obtain ⟨rounds,rfl⟩ : ∃ n, rounds = n+1 := ⟨rounds-1,by omega⟩
  rw [untilError]
  induction ds generalizing s rounds with
  | nil =>
    obtain ⟨e,he⟩ := h.ended (List.prefix_nil.mp hpending)
    rw [he]
    exact ⟨s,e,rfl,(List.append_nil _).symm⟩
  | cons d ds ih =>
    rw [List.map_cons,List.flatten_cons] at hpending
    rw [completeWithin] at hrounds ⊢
    rcases front_cases hpending with ⟨hlt,more,hmore,hcut⟩ | ⟨hle,rest,hrest,hfront⟩
    · obtain ⟨e,he⟩ := h.cut hready hmore hcut
      rw [he,if_neg (Nat.not_le.mpr hlt)]
      exact ⟨s,e,rfl,(List.append_nil _).symm⟩
    · obtain ⟨s₁,hs₁,hpending₁,hout₁,hready₁⟩ := h.whole hready hrest
      have hlen : (pending s).length - (octets d).length = (pending s₁).length := by
        rw [hrest,hpending₁,List.length_append]
        omega
      rw [if_pos hle,hlen] at hrounds ⊢
      obtain ⟨rounds,rfl⟩ : ∃ n, rounds = n+1 := ⟨rounds-1,by rw [List.length_cons] at hrounds; omega⟩
      obtain ⟨s',e,hloop,hout⟩ := ih hready₁ (hpending₁ ▸ hfront) rounds
        (Nat.lt_of_succ_lt_succ (by rwa [List.length_cons] at hrounds))
      rw [hs₁]
      refine ⟨s',e,hloop,?_⟩
      rw [hout,hout₁,List.append_assoc,List.singleton_append]

end DhtOcean.Foundation
