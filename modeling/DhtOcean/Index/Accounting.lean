import Mathlib.Data.List.Nodup
import DhtOcean.Foundation.Transition

/-! # Settling the deliveries of the indexer

The loop acknowledges what it cannot parse one by one and everything else in
batches, by one call for all tags up to the last. The broker settles the tags
that such a call covers and that are still open.
-/
namespace DhtOcean.Index
open Foundation
variable {B T : Type}

structure Delivery (B : Type) where
  tag : ℕ
  body : B

inductive Call
  | ack (tag : ℕ) (multiple : Bool)
  | nack (tag : ℕ) (multiple requeue : Bool)
  deriving DecidableEq, Repr

/-- One call of `batchSaveToIndex`: the tags of its batch, and whether it returned nil. -/
structure Save where
  tags : List ℕ
  ok : Bool
  deriving DecidableEq, Repr

/-- A call to the broker, the tags it settles there, and the save it follows. -/
structure Settlement where
  call : Call
  settled : List ℕ
  save : Option Save

/-- The batch with the tag of each torrent's delivery. The other fields record what happened:
everything delivered, the tags that the broker has open, and the calls in order. -/
structure Indexer (B T : Type) where
  batch : List (ℕ × T)
  delivered : List (Delivery B)
  unsettled : List ℕ
  saves : List Save
  log : List Settlement

/-- A delivery with the outcome of the save it may lead to and of the call that settles it. -/
structure Event (B : Type) where
  delivery : Delivery B
  saved : Bool
  settles : Bool

def newIndexer : Indexer B T := ⟨[],[],[],[],[]⟩

def Call.covers : Call → ℕ → Bool
  | .ack tag multiple, t => if multiple then t ≤ tag else t = tag
  | .nack tag multiple _, t => if multiple then t ≤ tag else t = tag

/-- `Ack` or `Nack` of a delivery. -/
def settle (call : Call) (save : Option Save) (s : Indexer B T) : Indexer B T :=
  { s with
    unsettled := s.unsettled.filter (fun t => !call.covers t)
    log := s.log ++ [⟨call,s.unsettled.filter call.covers,save⟩] }

def deliver (d : Delivery B) (s : Indexer B T) : Indexer B T :=
  { s with delivered := s.delivered ++ [d], unsettled := s.unsettled ++ [d.tag] }

def append (tag : ℕ) (t : T) (s : Indexer B T) : Indexer B T := { s with batch := s.batch ++ [(tag,t)] }

/-- The batch is saved, settled by the delivery that completed it, and begun anew. -/
def finish (tag : ℕ) (saved : Bool) (s : Indexer B T) : Indexer B T :=
  let save := ⟨s.batch.map Prod.fst,saved⟩
  let s := { s with saves := s.saves ++ [save] }
  let s := if saved then settle (.ack tag true) (some save) s else settle (.nack tag true true) (some save) s
  { s with batch := [] }

/-- One iteration of `Start`. A call to the broker that fails ends in a panic. -/
def iterate (parse : B → Option T) (batchSize : ℕ) (s : Indexer B T) (e : Event B) : Option (Indexer B T) :=
  let s := deliver e.delivery s
  match parse e.delivery.body with
  | none => if e.settles then some (settle (.ack e.delivery.tag false) none s) else none
  | some t =>
    let s := append e.delivery.tag t s
    if batchSize ≤ s.batch.length then
      if e.settles then some (finish e.delivery.tag e.saved s) else none
    else some s

/-- The broker numbers its deliveries upwards. -/
def Increasing (s : Indexer B T) (e : Event B) : Prop := ∀ d ∈ s.delivered, d.tag < e.delivery.tag

instance decidableIncreasing (s : Indexer B T) (e : Event B) : Decidable (Increasing s e) :=
  inferInstanceAs (Decidable (∀ d ∈ s.delivered, d.tag < e.delivery.tag))

/-- The books between two iterations. What cannot be parsed is acknowledged alone, and everything
else with the save of a batch that contained it. -/
structure Accounted (parse : B → Option T) (batchSize : ℕ) (s : Indexer B T) : Prop where
  open_tags : s.unsettled = s.batch.map Prod.fst
  batch_parsed : ∀ p ∈ s.batch, ∃ d ∈ s.delivered, d.tag = p.1 ∧ parse d.body = some p.2
  batch_lt : s.batch.length < batchSize
  settled_once : (s.log.flatMap Settlement.settled).Nodup
  call_settles : ∀ e ∈ s.log, ∀ tag, (∃ m, e.call = .ack tag m) ∨ (∃ m r, e.call = .nack tag m r) → tag ∈ e.settled
  acked : ∀ e ∈ s.log, ∀ tag m, e.call = .ack tag m → ∀ d ∈ s.delivered, d.tag ∈ e.settled →
    (parse d.body).isSome → m = true ∧ ∃ save ∈ s.saves, e.save = some save ∧ save.ok = true ∧ d.tag ∈ save.tags
  nacked : ∀ save ∈ s.saves, save.ok = false →
    ∃ e ∈ s.log, e.save = some save ∧ (∃ tag, e.call = .nack tag true true) ∧ ∀ t ∈ save.tags, t ∈ e.settled

theorem iterate_cases {parse : B → Option T} {batchSize : ℕ} {s s' : Indexer B T} {e : Event B}
    (h : iterate parse batchSize s e = some s') :
    (parse e.delivery.body = none ∧ s' = settle (.ack e.delivery.tag false) none (deliver e.delivery s)) ∨
    (∃ t, parse e.delivery.body = some t ∧ s.batch.length + 1 < batchSize ∧
      s' = append e.delivery.tag t (deliver e.delivery s)) ∨
    (∃ t, s' = finish e.delivery.tag e.saved (append e.delivery.tag t (deliver e.delivery s))) := by
  unfold iterate at h
  cases hp : parse e.delivery.body with
  | none =>
    simp only [hp,Option.ite_none_right_eq_some,Option.some.injEq] at h
    exact .inl ⟨rfl,h.2.symm⟩
  | some t =>
    simp only [hp] at h
    split at h
    · simp only [Option.ite_none_right_eq_some,Option.some.injEq] at h
      exact .inr (.inr ⟨t,h.2.symm⟩)
    · rename_i hlen
      refine .inr (.inl ⟨t,rfl,?_,(Option.some.inj h).symm⟩)
      simpa [append,deliver] using hlen

section Settle
variable {s : Indexer B T} {tag : ℕ} {save : Option Save}

/-- A single acknowledgement of the last tag leaves the others open. -/
theorem settle_last (tags : List ℕ) (hopen : s.unsettled = tags ++ [tag]) (hlt : ∀ t ∈ tags, t < tag) :
    settle (.ack tag false) save s =
      { s with unsettled := tags, log := s.log ++ [⟨.ack tag false,[tag],save⟩] } := by
  have hne : ∀ t ∈ tags, t ≠ tag := fun t ht => Nat.ne_of_lt (hlt t ht)
  have hrest : tags.filter (fun t => !decide (t = tag)) = tags := List.filter_eq_self.mpr (by simpa using hne)
  simpa [settle,Call.covers,hopen,List.filter_append,hrest] using hne

/-- A call for all tags up to the last settles everything that is open. -/
theorem settle_all {call : Call} (hall : ∀ t ∈ s.unsettled, call.covers t = true) :
    settle call save s = { s with unsettled := [], log := s.log ++ [⟨call,s.unsettled,save⟩] } := by
  have hrest : s.unsettled.filter (fun t => !call.covers t) = [] :=
    List.filter_eq_nil_iff.mpr (fun t ht => by simp [hall t ht])
  have hself : s.unsettled.filter call.covers = s.unsettled := List.filter_eq_self.mpr hall
  rw [settle,hrest,hself]

/-- The end of a batch with the last tag among the open ones. -/
theorem finish_all (saved : Bool) (hle : ∀ t ∈ s.unsettled, t ≤ tag) :
    finish tag saved s =
      { s with
        batch := []
        unsettled := []
        saves := s.saves ++ [⟨s.batch.map Prod.fst,saved⟩]
        log := s.log ++ [⟨if saved then .ack tag true else .nack tag true true,s.unsettled,
          some ⟨s.batch.map Prod.fst,saved⟩⟩] } := by
  cases saved with
  | true =>
    simp only [finish,if_true]
    rw [settle_all (by simpa [Call.covers] using hle)]
  | false =>
    simp only [finish,Bool.false_eq_true,if_false]
    rw [settle_all (by simpa [Call.covers] using hle)]

end Settle

/-- Everything settled or open was delivered, and nothing of it occurs twice. -/
structure Books (parse : B → Option T) (batchSize : ℕ) (s : Indexer B T) : Prop extends
    Accounted parse batchSize s where
  increasing : s.delivered.Pairwise (fun d d' => d.tag < d'.tag)
  known : ∀ t ∈ s.log.flatMap Settlement.settled ++ s.unsettled, t ∈ s.delivered.map Delivery.tag
  once : (s.log.flatMap Settlement.settled ++ s.unsettled).Nodup

section Step
variable {parse : B → Option T} {batchSize : ℕ} {s s' : Indexer B T} {e : Event B}

theorem Books.open_lt (hs : Books parse batchSize s) (hinc : Increasing s e) :
    ∀ t ∈ s.unsettled, t < e.delivery.tag := by
  intro t ht
  obtain ⟨d,hd,rfl⟩ := List.mem_map.mp (hs.known t (List.mem_append_right _ ht))
  exact hinc d hd

theorem Books.settled_lt (hs : Books parse batchSize s) (hinc : Increasing s e) {x : Settlement} (hx : x ∈ s.log)
    {t : ℕ} (ht : t ∈ x.settled) : t < e.delivery.tag := by
  have hmem : t ∈ s.log.flatMap Settlement.settled := List.mem_flatMap.mpr ⟨x,hx,ht⟩
  obtain ⟨d,hd,rfl⟩ := List.mem_map.mp (hs.known t (List.mem_append_left _ hmem))
  exact hinc d hd

/-- What earlier calls settled has nothing to do with a new delivery. -/
theorem Books.acked_deliver (hs : Books parse batchSize s) (hinc : Increasing s e) {x : Settlement}
    (hx : x ∈ s.log) {tag : ℕ} {m : Bool} (hcall : x.call = .ack tag m) {d : Delivery B}
    (hd : d ∈ s.delivered ++ [e.delivery]) (ht : d.tag ∈ x.settled) (hparse : (parse d.body).isSome) :
    m = true ∧ ∃ save ∈ s.saves, x.save = some save ∧ save.ok = true ∧ d.tag ∈ save.tags := by
  rcases List.mem_append.mp hd with hd | hd
  · exact hs.acked x hx tag m hcall d hd ht hparse
  · obtain rfl := List.mem_singleton.mp hd
    exact absurd (hs.settled_lt hinc hx ht) (Nat.lt_irrefl _)

theorem Books.increasing_deliver (hs : Books parse batchSize s) (hinc : Increasing s e) :
    (s.delivered ++ [e.delivery]).Pairwise (fun d d' => d.tag < d'.tag) := by
  rw [List.pairwise_append]
  refine ⟨hs.increasing,List.pairwise_singleton _ _,?_⟩
  intro d hd d' hd'
  rw [List.mem_singleton.mp hd']
  exact hinc d hd

/-- The tags settled and open, with the new one among them wherever it is put. -/
theorem Books.tags_deliver (hs : Books parse batchSize s) (hinc : Increasing s e) {ts : List ℕ}
    (hperm : ts.Perm (s.log.flatMap Settlement.settled ++ s.unsettled ++ [e.delivery.tag])) :
    (∀ t ∈ ts, t ∈ (s.delivered ++ [e.delivery]).map Delivery.tag) ∧ ts.Nodup := by
  constructor
  · intro t ht
    rw [List.map_append]
    rcases List.mem_append.mp (hperm.mem_iff.mp ht) with ht | ht
    · exact List.mem_append_left _ (hs.known t ht)
    · exact List.mem_append_right _ ht
  · rw [hperm.nodup_iff,List.nodup_append]
    refine ⟨hs.once,List.nodup_singleton _,?_⟩
    intro t ht t' ht'
    obtain ⟨d,hd,rfl⟩ := List.mem_map.mp (hs.known t ht)
    rw [List.mem_singleton.mp ht']
    exact Nat.ne_of_lt (hinc d hd)

/-- What was in the batch still comes from a delivery. -/
theorem Books.batch_deliver (hs : Books parse batchSize s) (d : Delivery B) :
    ∀ p ∈ s.batch, ∃ d' ∈ s.delivered ++ [d], d'.tag = p.1 ∧ parse d'.body = some p.2 := by
  intro p hp
  obtain ⟨d',hd',h⟩ := hs.batch_parsed p hp
  exact ⟨d',List.mem_append_left _ hd',h⟩

/-- The books after a delivery and a call that settles it, possibly with others. The obligations
are those of the new call alone. -/
theorem Books.settled (hs : Books parse batchSize s) (hinc : Increasing s e) (x : Settlement)
    (batch : List (ℕ × T)) (saves : List Save) (unsettled : List ℕ)
    (hperm : (x.settled ++ unsettled).Perm (s.unsettled ++ [e.delivery.tag]))
    (hopen : unsettled = batch.map Prod.fst) (hbatch : ∀ p ∈ batch, p ∈ s.batch) (hlen : batch.length < batchSize)
    (hcall : ∀ tag, (∃ m, x.call = .ack tag m) ∨ (∃ m r, x.call = .nack tag m r) → tag ∈ x.settled)
    (hacked : ∀ tag m, x.call = .ack tag m → ∀ d ∈ s.delivered ++ [e.delivery], d.tag ∈ x.settled →
      (parse d.body).isSome → m = true ∧ ∃ save ∈ s.saves ++ saves, x.save = some save ∧ save.ok = true ∧ d.tag ∈ save.tags)
    (hnacked : ∀ save ∈ saves, save.ok = false →
      x.save = some save ∧ (∃ tag, x.call = .nack tag true true) ∧ ∀ t ∈ save.tags, t ∈ x.settled) :
    Books parse batchSize ⟨batch,s.delivered ++ [e.delivery],unsettled,s.saves ++ saves,s.log ++ [x]⟩ := by
  have hflat : (s.log ++ [x]).flatMap Settlement.settled = s.log.flatMap Settlement.settled ++ x.settled := by simp
  have hall : ((s.log ++ [x]).flatMap Settlement.settled ++ unsettled).Perm
      (s.log.flatMap Settlement.settled ++ s.unsettled ++ [e.delivery.tag]) := by
    rw [hflat,List.append_assoc,List.append_assoc]
    exact hperm.append_left _
  obtain ⟨hknown,honce⟩ := hs.tags_deliver hinc hall
  refine ⟨⟨hopen,?_,hlen,(List.nodup_append.mp honce).1,?_,?_,?_⟩,hs.increasing_deliver hinc,hknown,honce⟩
  · intro p hp
    exact hs.batch_deliver e.delivery p (hbatch p hp)
  · exact List.forall_mem_append.mpr ⟨hs.call_settles,List.forall_mem_singleton.mpr hcall⟩
  · intro y hy tag m hack d hd ht hparse
    rcases List.mem_append.mp hy with hy | hy
    · obtain ⟨hm,save,hsave,h⟩ := hs.acked_deliver hinc hy hack hd ht hparse
      exact ⟨hm,save,List.mem_append_left _ hsave,h⟩
    · rw [List.mem_singleton.mp hy] at hack ht ⊢
      exact hacked tag m hack d hd ht hparse
  · intro save hsave hfail
    rcases List.mem_append.mp hsave with hsave | hsave
    · obtain ⟨y,hy,h⟩ := hs.nacked save hsave hfail
      exact ⟨y,List.mem_append_left _ hy,h⟩
    · exact ⟨x,List.mem_append_right _ (List.mem_singleton_self x),hnacked save hsave hfail⟩

/-- A delivery that cannot be parsed is acknowledged at once. -/
theorem Books.unparsed (hs : Books parse batchSize s) (hinc : Increasing s e)
    (hparse : parse e.delivery.body = none) :
    Books parse batchSize (settle (.ack e.delivery.tag false) none (deliver e.delivery s)) := by
  rw [settle_last s.unsettled rfl (hs.open_lt hinc)]
  have h := hs.settled hinc ⟨.ack e.delivery.tag false,[e.delivery.tag],none⟩ s.batch [] s.unsettled
    List.perm_append_comm hs.open_tags (fun p hp => hp) hs.batch_lt
  rw [List.append_nil] at h
  apply h
  · rintro tag (⟨m,hm⟩ | ⟨m,r,hm⟩)
    · cases hm
      exact List.mem_singleton_self _
    · cases hm
  · intro tag m _ d hd ht hsome
    -- Only the new delivery has this tag, and it cannot be parsed.
    rcases List.mem_append.mp hd with hd | hd
    · exact absurd (List.mem_singleton.mp ht) (Nat.ne_of_lt (hinc d hd))
    · rw [List.mem_singleton.mp hd,hparse] at hsome
      cases hsome
  · intro save hsave
    cases hsave

/-- A torrent that does not complete the batch stays open with it. -/
theorem Books.appended (hs : Books parse batchSize s) (hinc : Increasing s e) {t : T}
    (hparse : parse e.delivery.body = some t) (hlen : s.batch.length + 1 < batchSize) :
    Books parse batchSize (append e.delivery.tag t (deliver e.delivery s)) := by
  obtain ⟨hknown,honce⟩ := hs.tags_deliver hinc (List.Perm.refl _)
  rw [List.append_assoc] at hknown honce
  refine ⟨⟨?_,?_,?_,hs.settled_once,hs.call_settles,?_,hs.nacked⟩,hs.increasing_deliver hinc,hknown,honce⟩
  · simp [append,deliver,hs.open_tags]
  · refine List.forall_mem_append.mpr ⟨hs.batch_deliver e.delivery,List.forall_mem_singleton.mpr ?_⟩
    exact ⟨e.delivery,List.mem_append_right _ (List.mem_singleton_self _),rfl,hparse⟩
  · simpa [append,deliver] using hlen
  · intro x hx tag m hcall d hd ht hsome
    exact hs.acked_deliver hinc hx hcall hd ht hsome

/-- One call settles the whole batch, whether it was saved or not. -/
theorem Books.finished (hs : Books parse batchSize s) (hinc : Increasing s e) (hpos : 0 < batchSize) (t : T)
    (saved : Bool) :
    Books parse batchSize (finish e.delivery.tag saved (append e.delivery.tag t (deliver e.delivery s))) := by
  have hle : ∀ t ∈ s.unsettled ++ [e.delivery.tag], t ≤ e.delivery.tag :=
    List.forall_mem_append.mpr
      ⟨fun t ht => Nat.le_of_lt (hs.open_lt hinc t ht),List.forall_mem_singleton.mpr (Nat.le_refl _)⟩
  have htags : (s.batch ++ [(e.delivery.tag,t)]).map Prod.fst = s.unsettled ++ [e.delivery.tag] := by
    simp [hs.open_tags]
  have hlast : e.delivery.tag ∈ s.unsettled ++ [e.delivery.tag] :=
    List.mem_append_right _ (List.mem_singleton_self _)
  rw [finish_all saved hle]
  simp only [append,deliver,htags]
  apply hs.settled hinc
  · rw [List.append_nil]
  · rfl
  · intro p hp
    cases hp
  · exact hpos
  · intro tag htag
    have : tag = e.delivery.tag := by cases saved <;> simpa [eq_comm] using htag
    rwa [this]
  · intro tag m hack d _ ht _
    cases saved with
    | false => cases hack
    | true =>
      cases hack
      exact ⟨rfl,_,List.mem_append_right _ (List.mem_singleton_self _),rfl,rfl,ht⟩
  · intro save hsave hfail
    rw [List.mem_singleton.mp hsave] at hfail ⊢
    cases (hfail : saved = false)
    exact ⟨rfl,⟨_,rfl⟩,fun t ht => ht⟩

theorem Books.next (hs : Books parse batchSize s) (hinc : Increasing s e) (hpos : 0 < batchSize)
    (h : iterate parse batchSize s e = some s') : Books parse batchSize s' := by
  rcases iterate_cases h with ⟨hparse,rfl⟩ | ⟨t,hparse,hlen,rfl⟩ | ⟨t,rfl⟩
  · exact hs.unparsed hinc hparse
  · exact hs.appended hinc hparse hlen
  · exact hs.finished hinc hpos t e.saved

end Step

theorem books_newIndexer {parse : B → Option T} {batchSize : ℕ} (hpos : 0 < batchSize) :
    Books parse batchSize newIndexer where
  open_tags := rfl
  batch_parsed := by simp [newIndexer]
  batch_lt := hpos
  settled_once := List.nodup_nil
  call_settles := by simp [newIndexer]
  acked := by simp [newIndexer]
  nacked := by simp [newIndexer]
  increasing := List.Pairwise.nil
  known := by simp [newIndexer]
  once := List.nodup_nil

/-- After every iteration, whatever the bodies and however the saves end. -/
theorem deliveries_accounted (parse : B → Option T) (batchSize : ℕ) (hpos : 1 ≤ batchSize) (s : Indexer B T)
    (hs : Reach (iterate parse batchSize) Increasing newIndexer s) : Accounted parse batchSize s := by
  have hbooks := hs.invariant (P := Books parse batchSize) (books_newIndexer hpos)
    (fun hi hinc h => hi.next hinc hpos h)
  exact hbooks.toAccounted

/-- Three deliveries, of which the second cannot be parsed and the third completes a batch of two
that is not saved. -/
def threeDeliveries : List (Event Bool) := [⟨⟨1,true⟩,true,true⟩,⟨⟨2,false⟩,true,true⟩,⟨⟨5,true⟩,false,true⟩]

def parseSample (b : Bool) : Option Unit := if b then some () else none

theorem threeDeliveries_accounted : ∃ s, run (iterate parseSample 2) newIndexer threeDeliveries = some s ∧
    s.log.map Settlement.call = [.ack 2 false,.nack 5 true true] ∧ Accounted parseSample 2 s := by
  have hs := deliveries_accounted parseSample 2 (by decide) _ (.of_guarded threeDeliveries rfl (by decide))
  exact ⟨_,rfl,rfl,hs⟩

end DhtOcean.Index
