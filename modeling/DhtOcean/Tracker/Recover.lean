import Mathlib.Data.List.Nodup
import DhtOcean.Foundation.Bytes

/-! # Publishing what the tracker was never asked for

`Recover` publishes the torrents without a date in rounds and dates each round once
all of it is published. Which of them a round finds is up to the database, and every
call may fail. Each round leaves fewer torrents without a date, so that the loop
comes to an end; behind each date that it sets there is a message.
-/
namespace DhtOcean.Tracker.Recover
open Foundation
variable {R E : Type} {limit : ℕ}

structure Torrent (R : Type) where
  infoHash : Bytes
  trackerLastTriedAt : Option ℕ
  rest : R

/-- The documents, whose key is the hash. -/
structure Collection (R : Type) where
  docs : List (Torrent R)
  distinct : (docs.map Torrent.infoHash).Nodup

def Torrent.mark (date : ℕ) (ids : List Bytes) (t : Torrent R) : Torrent R :=
  if ids.contains t.infoHash then { t with trackerLastTriedAt := some date } else t

theorem Torrent.infoHash_mark (date : ℕ) (ids : List Bytes) (t : Torrent R) : (t.mark date ids).infoHash = t.infoHash := by
  unfold mark
  split <;> rfl

def Collection.mark (c : Collection R) (date : ℕ) (ids : List Bytes) : Collection R where
  docs := c.docs.map (Torrent.mark date ids)
  distinct := by
    rw [List.map_map,show Torrent.infoHash ∘ Torrent.mark date ids = Torrent.infoHash (R := R) from
      funext (Torrent.infoHash_mark date ids)]
    exact c.distinct

def Collection.untried (c : Collection R) : List (Torrent R) := c.docs.filter (·.trackerLastTriedAt.isNone)

/-- The database and the publisher. Calls are numbered by rounds, and each of them may fail; an update that
fails may have marked some of its documents. -/
structure Services (R E : Type) (limit : ℕ) where
  find : ℕ → Collection R → Except E (List (Torrent R))
  marshal : Torrent R → Except E Bytes
  publish : ℕ → Bytes → Except E Unit
  update : ℕ → Collection R → List Bytes → List Bytes × Except E Unit
  date : ℕ → ℕ
  find_sub : ∀ {n c ts}, find n c = .ok ts → ∀ t ∈ ts, t ∈ c.untried
  find_nodup : ∀ {n c ts}, find n c = .ok ts → ts.Nodup
  find_limit : ∀ {n c ts}, find n c = .ok ts → ts.length ≤ limit
  find_some : ∀ {n c}, find n c = .ok [] → c.untried = []
  update_sub : ∀ n c ids, ∀ id ∈ (update n c ids).1, id ∈ ids
  update_all : ∀ {n c ids}, (update n c ids).2 = .ok () → ∀ id ∈ ids, id ∈ (update n c ids).1

inductive Action (R : Type)
  /-- The message of the torrent. -/
  | publish (t : Torrent R)
  /-- The documents that an update has marked. -/
  | update (ids : List Bytes)

structure Recovered (R E : Type) where
  col : Collection R
  trace : List (Action R)
  result : Except E Unit

/-- What was published, and the hashes if that is all. -/
def publishAll (sv : Services R E limit) (n : ℕ) : List (Torrent R) → List (Torrent R) × Except E (List Bytes)
  | [] => ([],.ok [])
  | torrent :: torrents =>
    match sv.marshal torrent with
    | .error e => ([],.error e)
    | .ok raw =>
      match sv.publish n raw with
      | .error e => ([],.error e)
      | .ok () => (torrent :: (publishAll sv n torrents).1,(publishAll sv n torrents).2.map (torrent.infoHash :: ·))

inductive Round (R E : Type)
  | stop (r : Recovered R E)
  | again (c : Collection R) (trace : List (Action R))

def round (sv : Services R E limit) (n : ℕ) (c : Collection R) : Round R E :=
  match sv.find n c with
  | .error e => .stop ⟨c,[],.error e⟩
  | .ok torrents =>
    if torrents.isEmpty then .stop ⟨c,[],.ok ()⟩
    else
      match publishAll sv n torrents with
      | (published,.error e) => .stop ⟨c,published.map .publish,.error e⟩
      | (published,.ok ids) =>
        let (marked,result) := sv.update n c ids
        let c' := c.mark (sv.date n) marked
        let trace := published.map .publish ++ [.update marked]
        match result with
        | .error e => .stop ⟨c',trace,.error e⟩
        | .ok () => .again c' trace

def recover (sv : Services R E limit) : ℕ → ℕ → Collection R → Option (Recovered R E)
  | 0, _, _ => none
  | fuel + 1, n, c =>
    match round sv n c with
    | .stop r => some r
    | .again c' trace => (recover sv fuel (n + 1) c').map (fun r => { r with trace := trace ++ r.trace })

def Recovered.published (r : Recovered R E) : List (Torrent R) :=
  r.trace.filterMap (fun | .publish t => some t | .update _ => none)

section Round
variable {sv : Services R E limit} {n : ℕ} {c : Collection R}

theorem publishAll_cases (sv : Services R E limit) (n : ℕ) (ts : List (Torrent R)) :
    publishAll sv n ts = (ts,.ok (ts.map Torrent.infoHash)) ∨
    ∃ published e, publishAll sv n ts = (published,.error e) := by
  induction ts with
  | nil => exact .inl rfl
  | cons t ts ih =>
    rw [publishAll]
    cases sv.marshal t with
    | error e => exact .inr ⟨[],e,rfl⟩
    | ok raw =>
      dsimp only
      cases sv.publish n raw with
      | error e => exact .inr ⟨[],e,rfl⟩
      | ok _ =>
        rcases ih with hall | ⟨published,e,hfail⟩
        · left
          rw [hall]
          rfl
        · right
          rw [hfail]
          exact ⟨t :: published,e,rfl⟩

/-- A round finds nothing, fails with some of what it found published, or publishes it all and marks
some of it, or all. -/
theorem round_cases (sv : Services R E limit) (n : ℕ) (c : Collection R) :
    (c.untried = [] ∧ round sv n c = .stop ⟨c,[],.ok ()⟩) ∨
    (∃ (ts : List (Torrent R)) (e : E), round sv n c = .stop ⟨c,ts.map .publish,.error e⟩) ∨
    ∃ ts ids, ts ≠ [] ∧ (∀ t ∈ ts, t ∈ c.untried) ∧ ts.Nodup ∧ (∀ id ∈ ids, id ∈ ts.map Torrent.infoHash) ∧
      ((∃ e, round sv n c = .stop ⟨c.mark (sv.date n) ids,ts.map .publish ++ [.update ids],.error e⟩) ∨
        ((∀ id ∈ ts.map Torrent.infoHash, id ∈ ids) ∧
          round sv n c = .again (c.mark (sv.date n) ids) (ts.map .publish ++ [.update ids]))) := by
  cases hfind : sv.find n c with
  | error e => exact .inr (.inl ⟨[],e,by simp [round,hfind]⟩)
  | ok ts =>
    by_cases hnil : ts = []
    · subst hnil
      exact .inl ⟨sv.find_some hfind,by simp [round,hfind]⟩
    · rcases publishAll_cases sv n ts with hall | ⟨published,e,hfail⟩
      · refine .inr (.inr ⟨ts,_,hnil,sv.find_sub hfind,sv.find_nodup hfind,sv.update_sub n c _,?_⟩)
        cases hupdate : (sv.update n c (ts.map Torrent.infoHash)).2 with
        | error e => exact .inl ⟨e,by simp [round,hfind,hnil,hall,hupdate]⟩
        | ok _ => exact .inr ⟨sv.update_all hupdate,by simp [round,hfind,hnil,hall,hupdate]⟩
      · exact .inr (.inl ⟨published,e,by simp [round,hfind,hnil,hfail]⟩)

end Round

section Runs
variable {sv : Services R E limit} {n : ℕ} {c c' : Collection R} {r : Recovered R E}

structure Correct (c : Collection R) (r : Recovered R E) : Prop where
  complete : r.result = .ok () → r.published.Perm c.untried ∧ r.col.untried = []
  ordered : ∀ before ids after, r.trace = before ++ .update ids :: after →
    ∀ id ∈ ids, ∃ t ∈ c.untried, t.infoHash = id ∧ .publish t ∈ before
  changed : ∀ t ∈ r.col.docs, t ∉ c.docs → ∃ ids, .update ids ∈ r.trace ∧ t.infoHash ∈ ids

/-- An update in a trace that starts with a round is that of the round or comes behind it. -/
theorem split_trace {ts : List (Torrent R)} {ids ids' : List Bytes} {rest before after : List (Action R)}
    (h : ts.map .publish ++ .update ids :: rest = before ++ .update ids' :: after) :
    (before = ts.map .publish ∧ ids' = ids) ∨
    ∃ before', before = ts.map .publish ++ .update ids :: before' ∧ rest = before' ++ .update ids' :: after := by
  induction ts generalizing before with
  | nil =>
    cases before with
    | nil =>
      cases h
      exact .inl ⟨rfl,rfl⟩
    | cons a before =>
      cases h
      exact .inr ⟨before,rfl,rfl⟩
  | cons t ts ih =>
    cases before with
    | nil => cases h
    | cons a before =>
      rw [List.map_cons,List.cons_append,List.cons_append,List.cons.injEq] at h
      obtain ⟨rfl,h⟩ := h
      rcases ih h with ⟨rfl,rfl⟩ | ⟨before',rfl,rfl⟩
      · exact .inl ⟨rfl,rfl⟩
      · exact .inr ⟨before',rfl,rfl⟩

theorem mem_mark {date : ℕ} {ids : List Bytes} {t : Torrent R} (ht : t ∈ (c.mark date ids).docs) (hne : t ∉ c.docs) :
    t.infoHash ∈ ids := by
  obtain ⟨u,hu,rfl⟩ := List.mem_map.mp ht
  rw [Torrent.infoHash_mark]
  by_contra hid
  rw [Torrent.mark,if_neg (by simpa using hid)] at hne
  exact hne hu

theorem published_of_mem {ts : List (Torrent R)} {ids : List Bytes} (hsub : ∀ t ∈ ts, t ∈ c.untried)
    (hids : ∀ id ∈ ids, id ∈ ts.map Torrent.infoHash) :
    ∀ id ∈ ids, ∃ t ∈ c.untried, t.infoHash = id ∧ .publish t ∈ ts.map Action.publish := by
  intro id hid
  obtain ⟨t,ht,rfl⟩ := List.mem_map.mp (hids id hid)
  exact ⟨t,hsub t ht,rfl,List.mem_map_of_mem ht⟩

section Steps
variable {ts : List (Torrent R)} {ids : List Bytes} {date : ℕ}

theorem Correct.marked (hsub : ∀ t ∈ ts, t ∈ c.untried) (hids : ∀ id ∈ ids, id ∈ ts.map Torrent.infoHash) (e : E) :
    Correct c ⟨c.mark date ids,ts.map .publish ++ [.update ids],.error e⟩ := by
  refine ⟨?_,?_,?_⟩
  · rintro ⟨⟩
  · intro before ids' after h
    rcases split_trace h with ⟨rfl,rfl⟩ | ⟨before',-,hrest⟩
    · exact published_of_mem hsub hids
    · simp at hrest
  · exact fun t ht hne => ⟨ids,by simp,mem_mark ht hne⟩

theorem Correct.again (hsub : ∀ t ∈ ts, t ∈ c.untried) (hids : ∀ id ∈ ids, id ∈ ts.map Torrent.infoHash)
    (hsplit : c.untried.Perm (ts ++ (c.mark date ids).untried)) (hr : Correct (c.mark date ids) r) :
    Correct c { r with trace := ts.map .publish ++ [.update ids] ++ r.trace } := by
  refine ⟨?_,?_,?_⟩
  · intro hok
    obtain ⟨hperm,hnone⟩ := hr.complete hok
    refine ⟨?_,hnone⟩
    have hpublished : ({ r with trace := ts.map .publish ++ [.update ids] ++ r.trace } : Recovered R E).published =
        ts ++ r.published := by
      simp [Recovered.published,List.filterMap_map]
    rw [hpublished]
    exact (hperm.append_left ts).trans hsplit.symm
  · intro before ids' after h
    rw [List.append_assoc,List.singleton_append] at h
    rcases split_trace h with ⟨rfl,rfl⟩ | ⟨before',rfl,hrest⟩
    · exact published_of_mem hsub hids
    · intro id hid
      obtain ⟨t,ht,heq,hmem⟩ := hr.ordered before' ids' after hrest id hid
      refine ⟨t,hsplit.mem_iff.mpr (List.mem_append_right _ ht),heq,?_⟩
      exact List.mem_append_right _ (List.mem_cons_of_mem _ hmem)
  · intro t ht hne
    by_cases hmem : t ∈ (c.mark date ids).docs
    · exact ⟨ids,by simp,mem_mark hmem hne⟩
    · obtain ⟨ids',hupdate,hid⟩ := hr.changed t ht hmem
      exact ⟨ids',List.mem_append_right _ hupdate,hid⟩

end Steps

end Runs

section Sample

end Sample

end DhtOcean.Tracker.Recover
