import DhtOcean.Bencode.Sound
import DhtOcean.Foundation.Spans

/-! # Where the byte strings of a decoded value lie

A decoded byte string is a view of the buffer. No two byte strings of one value
overlap, whatever the buffer holds: what is written through one of them is not seen
through another.
-/
namespace DhtOcean.Bencode
open Foundation

def Slice.spans : Slice → List Span
  | .view off len => [⟨off,len⟩]
  | .owned _ => []

mutual
/-- The runs of the buffer that a value shows. -/
def Value.spans : Value Slice → List Span
  | .int _ => []
  | .str _ => []
  | .bytes s => s.spans
  | .list xs => itemSpans xs
  | .map m => entrySpans m
  | .other => []

def itemSpans : List (Value Slice) → List Span
  | [] => []
  | x :: xs => x.spans ++ itemSpans xs

def entrySpans : List (Bytes × Value Slice) → List Span
  | [] => []
  | (_,x) :: m => x.spans ++ entrySpans m
end

theorem itemSpans_eq (xs : List (Value Slice)) : itemSpans xs = xs.flatMap Value.spans := by
  induction xs with
  | nil => rfl
  | cons x xs ih => rw [itemSpans,ih,List.flatMap_cons]

theorem entrySpans_eq (m : Dict Slice) : entrySpans m = m.flatMap (fun e => e.2.spans) := by
  induction m with
  | nil => rfl
  | cons e m ih => rw [entrySpans,ih,List.flatMap_cons]

/-- A written entry is packed behind the ones that stay. -/
theorem entrySpans_insert {lo mid hi : ℕ} {m : Dict Slice} {x : Value Slice} (k : Bytes)
    (hm : Packed lo mid ((entrySpans m).map Span.wide)) (hx : Packed mid hi (x.spans.map Span.wide)) (hlo : lo ≤ mid)
    (hhi : mid ≤ hi) : Packed lo hi ((entrySpans (KeyMap.insert k x m)).map Span.wide) := by
  have hall : Packed lo hi ((entrySpans (m ++ [(k,x)])).map Span.wide) := by
    rw [entrySpans_eq,List.flatMap_append,List.flatMap_singleton,← entrySpans_eq,List.map_append]
    exact hm.append hx hlo hhi
  rw [entrySpans_eq,List.map_flatMap] at hall ⊢
  exact hall.of_subperm (subperm_flatMap (KeyMap.insert_subperm k x m) _)

/-- Every value is packed into the part of the buffer that it was read from, with an octet between any
two byte strings: the length of a byte string stands before it. -/
theorem packed_cases (buf : Bytes) :
    OkCases buf (fun pos v off => pos < off ∧ Packed (pos + 1) (off + 1) (v.spans.map Span.wide))
      (fun i ret xs off => i < off ∧ ∀ lo ≤ i + 1, Packed lo (i + 1) ((itemSpans ret).map Span.wide) →
        Packed lo (off + 1) ((itemSpans xs).map Span.wide))
      (fun i _ ret m off => i < off ∧ ∀ lo ≤ i + 1, Packed lo (i + 1) ((entrySpans ret).map Span.wide) →
        Packed lo (off + 1) ((entrySpans m).map Span.wide)) where
  int _ h := ⟨decodeInt_progress h,.nil⟩
  bytes _ _ h := by
    obtain ⟨start,len,rfl,hstart,rfl,-⟩ := decodeBytes_eq_ok h
    exact ⟨by omega,.single hstart le_rfl⟩
  list _ h := ⟨by omega,h.2 _ (Nat.le_succ _) .nil⟩
  dict _ h := ⟨by omega,h.2 _ (Nat.le_succ _) .nil⟩
  listEnd _ := ⟨Nat.lt_succ_self _,fun _ _ h => h.mono le_rfl (Nat.le_succ _)⟩
  listNext _ ha hl := by
    refine ⟨ha.1.trans hl.1,?_⟩
    intro lo hlo h
    have hle := Nat.succ_le_succ ha.1.le
    apply hl.2 lo (hlo.trans hle)
    rw [itemSpans_eq,List.flatMap_append,List.flatMap_singleton,← itemSpans_eq,List.map_append]
    exact h.append ha.2 hlo hle
  dictEnd _ := ⟨Nat.lt_succ_self _,fun _ _ h => h.mono le_rfl (Nat.le_succ _)⟩
  dictKey _ ha hd := by
    have hle := Nat.succ_le_succ ha.1.le
    exact ⟨ha.1.trans hd.1,fun lo hlo h => hd.2 lo (hlo.trans hle) (h.mono le_rfl hle)⟩
  dictValue _ ha hd := by
    have hle := Nat.succ_le_succ ha.1.le
    exact ⟨ha.1.trans hd.1,fun lo hlo h => hd.2 lo (hlo.trans hle) (entrySpans_insert _ h ha.2 hlo hle)⟩

/-- An octet stands between any two byte strings of a decoded value. -/
theorem bDecode_wide {buf : Bytes} {v : Value Slice} (h : bDecode buf = .ok v) :
    (v.spans.map Span.wide).Pairwise Span.Apart := by
  obtain ⟨⟨v',off⟩,hany,hv⟩ := Outcome.bind_eq_ok.mp h
  cases hv
  exact (((packed_cases buf).holds _).1 hany).2.apart

theorem bDecode_apart {buf : Bytes} {v : Value Slice} (h : bDecode buf = .ok v) : v.spans.Pairwise Span.Apart :=
  (List.pairwise_map.mp (bDecode_wide h)).imp Span.Apart.of_wide

section Unchanged
variable {mem mem' : Bytes}

theorem Slice.read_unchanged {s : Slice} (h : Unchanged s.spans mem mem') : s.read mem' = s.read mem := by
  cases s with
  | view off len => exact h ⟨off,len⟩ (List.mem_singleton_self _)
  | owned b => rfl

mutual
/-- A value reads the same as long as its byte strings do. -/
theorem Value.load_unchanged : ∀ v : Value Slice, Unchanged v.spans mem mem' → v.load (Slice.read mem') = v.load (Slice.read mem)
  | .int _, _ => rfl
  | .str _, _ => rfl
  | .bytes _, h => congrArg Value.bytes (Slice.read_unchanged h)
  | .list xs, h => congrArg Value.list (loadItems_unchanged xs h)
  | .map m, h => congrArg Value.map (loadEntries_unchanged m h)
  | .other, _ => rfl

theorem loadItems_unchanged : ∀ xs : List (Value Slice), Unchanged (itemSpans xs) mem mem' →
    loadItems (Slice.read mem') xs = loadItems (Slice.read mem) xs
  | [], _ => rfl
  | x :: xs, h => by
    obtain ⟨hx,hxs⟩ := List.forall_mem_append.mp h
    rw [loadItems,loadItems,x.load_unchanged hx,loadItems_unchanged xs hxs]

theorem loadEntries_unchanged : ∀ m : List (Bytes × Value Slice), Unchanged (entrySpans m) mem mem' →
    loadEntries (Slice.read mem') m = loadEntries (Slice.read mem) m
  | [], _ => rfl
  | (k,x) :: m, h => by
    obtain ⟨hx,hm⟩ := List.forall_mem_append.mp h
    rw [loadEntries,loadEntries,x.load_unchanged hx,loadEntries_unchanged m hm]
end

end Unchanged

/-- Byte strings under different keys are apart. -/
theorem apart_of_lookup {m : Dict Slice} (hm : (Value.map m).spans.Pairwise Span.Apart) {k k' : Bytes} (hne : k ≠ k')
    {v v' : Value Slice} (hv : m.lookup k = some v) (hv' : m.lookup k' = some v') {s s' : Span} (hs : s ∈ v.spans)
    (hs' : s' ∈ v'.spans) : s.Apart s' := by
  rw [Value.spans,entrySpans_eq] at hm
  have hentries := (List.pairwise_flatMap.mp hm).2
  have : Std.Symm (fun e e' : Bytes × Value Slice => ∀ s ∈ e.2.spans, ∀ s' ∈ e'.2.spans, s.Apart s') :=
    ⟨fun _ _ h s hs s' hs' => Or.symm (h s' hs' s hs)⟩
  exact hentries.forall (KeyMap.mem_of_lookup hv) (KeyMap.mem_of_lookup hv') (fun h => hne (congrArg Prod.fst h)) s hs s' hs'

theorem spans_of_lookup {m : Dict Slice} {k : Bytes} {v : Value Slice} (hv : m.lookup k = some v) {s : Span}
    (hs : s ∈ v.spans) : s ∈ (Value.map m).spans := by
  rw [Value.spans,entrySpans_eq]
  exact List.mem_flatMap.mpr ⟨_,KeyMap.mem_of_lookup hv,hs⟩

end DhtOcean.Bencode
