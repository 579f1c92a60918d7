import DhtOcean.Bencode.Encode
import DhtOcean.Foundation.Outcome

/-! # One encoding for each value

Go enumerates a map in an arbitrary order, and the same text may be held in a
string or in a byte slice. Neither reaches the encoding, in which every dictionary
lists its keys in strictly increasing order.
-/
namespace DhtOcean.Bencode
open Foundation

/-- The keys of every map in the value are distinct, as they are in Go. -/
inductive DistinctKeys : Value Bytes → Prop
  | int (n : Int64) : DistinctKeys (.int n)
  | str (s : Bytes) : DistinctKeys (.str s)
  | bytes (b : Bytes) : DistinctKeys (.bytes b)
  | list {xs : List (Value Bytes)} : (∀ x ∈ xs, DistinctKeys x) → DistinctKeys (.list xs)
  | map {m : Dict Bytes} : (m.map Prod.fst).Nodup → (∀ e ∈ m, DistinctKeys e.2) → DistinctKeys (.map m)
  | other : DistinctKeys .other

/-- The same value: its maps may be enumerated in another order at every depth, and a text may be
held in a string or in a byte slice. -/
inductive Reordered : Value Bytes → Value Bytes → Prop
  | int (n : Int64) : Reordered (.int n) (.int n)
  | str (s : Bytes) : Reordered (.str s) (.str s)
  | bytes (b : Bytes) : Reordered (.bytes b) (.bytes b)
  | strBytes (s : Bytes) : Reordered (.str s) (.bytes s)
  | bytesStr (s : Bytes) : Reordered (.bytes s) (.str s)
  | list {xs ys : List (Value Bytes)} : xs.length = ys.length → (∀ p ∈ xs.zip ys, Reordered p.1 p.2) →
      Reordered (.list xs) (.list ys)
  | map {m n : Dict Bytes} : (m.map Prod.fst).Perm (n.map Prod.fst) →
      (∀ k x y, (k,x) ∈ m → (k,y) ∈ n → Reordered x y) → Reordered (.map m) (.map n)
  | other : Reordered .other .other

mutual
/-- Text of a value in which every dictionary lists its keys in strictly increasing order. -/
inductive Ordered : Bytes → Prop
  | int (n : Int64) : Ordered (encodeInt n)
  | string (s : Bytes) : Ordered (sized s)
  | list {w : Bytes} : OrderedItems w → Ordered ('l'.toUInt8 :: w ++ ['e'.toUInt8])
  | dict {w : Bytes} {keys : List Bytes} : keys.Pairwise (· < ·) → OrderedEntries w keys →
      Ordered ('d'.toUInt8 :: w ++ ['e'.toUInt8])

inductive OrderedItems : Bytes → Prop
  | nil : OrderedItems []
  | cons {w ws : Bytes} : Ordered w → OrderedItems ws → OrderedItems (w ++ ws)

inductive OrderedEntries : Bytes → List Bytes → Prop
  | nil : OrderedEntries [] []
  | cons {w ws : Bytes} {k : Bytes} {keys : List Bytes} : Ordered w → OrderedEntries ws keys →
      OrderedEntries (sized k ++ w ++ ws) (k :: keys)
end

theorem encodeList_congr {xs ys : List (Value Bytes)} (hlen : xs.length = ys.length)
    (h : ∀ p ∈ xs.zip ys, encodeAny p.2 = encodeAny p.1) : encodeList ys = encodeList xs := by
  induction xs generalizing ys with
  | nil =>
    rw [List.eq_nil_of_length_eq_zero hlen.symm]
  | cons x xs ih =>
    obtain ⟨y,ys,rfl⟩ := List.exists_cons_of_length_eq_add_one hlen.symm
    obtain ⟨hhead,htail⟩ := List.forall_mem_cons.mp h
    rw [encodeList,encodeList,hhead,ih (Nat.succ.inj hlen) htail]

/-- A map is written by its entries, however it is enumerated. -/
theorem encodeMap_congr {m n : Dict Bytes} (hm : (m.map Prod.fst).Nodup) (hkeys : (m.map Prod.fst).Perm (n.map Prod.fst))
    (h : ∀ k x y, (k,x) ∈ m → (k,y) ∈ n → encodeAny y = encodeAny x) :
    encodeMap (encodeValues n) = encodeMap (encodeValues m) := by
  have hn : (n.map Prod.fst).Nodup := hkeys.nodup_iff.mp hm
  have hfst : ∀ d : Dict Bytes, (encodeValues d).map Prod.fst = d.map Prod.fst := by
    intro d
    rw [encodeValues_eq,List.map_map]
    rfl
  have hm' : ((encodeValues m).map Prod.fst).Nodup := by rwa [hfst]
  have hn' : ((encodeValues n).map Prod.fst).Nodup := by rwa [hfst]
  have hperm : (encodeValues m).Perm (encodeValues n) := by
    rw [List.perm_ext_iff_of_nodup hm'.of_map hn'.of_map]
    rintro ⟨k,w⟩
    simp only [encodeValues_eq,List.mem_map,Prod.map_apply,id_eq,Prod.exists,Prod.mk.injEq]
    constructor
    · rintro ⟨k,x,hx,rfl,rfl⟩
      obtain ⟨⟨k,y⟩,hy,rfl⟩ := List.mem_map.mp (hkeys.mem_iff.mp (List.mem_map.mpr ⟨_,hx,rfl⟩))
      exact ⟨k,y,hy,rfl,h k x y hx hy⟩
    · rintro ⟨k,y,hy,rfl,rfl⟩
      obtain ⟨⟨k,x⟩,hx,rfl⟩ := List.mem_map.mp (hkeys.mem_iff.mpr (List.mem_map.mpr ⟨_,hy,rfl⟩))
      exact ⟨k,x,hx,rfl,(h k x y hx hy).symm⟩
  rw [encodeMap,encodeMap,KeyMap.listed_eq_ofPairs hm',KeyMap.listed_eq_ofPairs hn',KeyMap.ofPairs_perm hm' hperm]

theorem Reordered.encodeAny_eq {v w : Value Bytes} (h : Reordered v w) (hv : DistinctKeys v) :
    encodeAny w = encodeAny v := by
  induction h with
  | int n => rfl
  | str s => rfl
  | bytes b => rfl
  | strBytes s => rfl
  | bytesStr s => rfl
  | list hlen _ ih =>
    cases hv with
    | list hxs =>
      rw [encodeAny,encodeAny,encodeList_congr hlen]
      intro p hp
      exact ih p hp (hxs p.1 (List.of_mem_zip hp).1)
  | map hkeys _ ih =>
    cases hv with
    | map hm hvalues =>
      rw [encodeAny,encodeAny]
      exact encodeMap_congr hm hkeys (fun k x y hx hy => ih k x y hx hy (hvalues (k,x) hx))
  | other => rfl

theorem encodeList_ordered {xs : List (Value Bytes)} (h : ∀ x ∈ xs, ∀ w, encodeAny x = .ok w → Ordered w) {w : Bytes}
    (hw : encodeList xs = .ok w) : OrderedItems w := by
  induction xs generalizing w with
  | nil =>
    cases hw
    exact .nil
  | cons x xs ih =>
    rw [encodeList] at hw
    obtain ⟨u,hx,hw⟩ := exceptBind_eq_ok.mp hw
    obtain ⟨us,hxs,hw⟩ := exceptBind_eq_ok.mp hw
    cases hw
    exact .cons (h x List.mem_cons_self u hx) (ih (fun y hy => h y (List.mem_cons_of_mem _ hy)) hxs)

theorem encodeEntries_ordered {es : List (Bytes × Except EncodeError Bytes)}
    (h : ∀ e ∈ es, ∀ w, e.2 = .ok w → Ordered w) {w : Bytes} (hw : encodeEntries es = .ok w) :
    OrderedEntries w (es.map Prod.fst) := by
  induction es generalizing w with
  | nil =>
    cases hw
    exact .nil
  | cons e es ih =>
    obtain ⟨k,v⟩ := e
    rw [encodeEntries] at hw
    obtain ⟨u,hv,hw⟩ := exceptBind_eq_ok.mp hw
    obtain ⟨us,hes,hw⟩ := exceptBind_eq_ok.mp hw
    cases hw
    exact .cons (h (k,v) List.mem_cons_self u hv) (ih (fun y hy => h y (List.mem_cons_of_mem _ hy)) hes)

/-- Whatever is written lists the keys of every dictionary in order. -/
theorem DistinctKeys.ordered {v : Value Bytes} (hv : DistinctKeys v) : ∀ w, encodeAny v = .ok w → Ordered w := by
  induction hv with
  | int n =>
    rintro w ⟨⟩
    exact .int n
  | str s =>
    rintro w ⟨⟩
    exact .string s
  | bytes b =>
    rintro w ⟨⟩
    exact .string b
  | list _ ih =>
    intro w hw
    rw [encodeAny] at hw
    obtain ⟨u,hxs,hw⟩ := exceptBind_eq_ok.mp hw
    cases hw
    exact .list (encodeList_ordered ih hxs)
  | @map m hm _ ih =>
    intro w hw
    rw [encodeAny,encodeMap,encodeValues_eq,KeyMap.listed_map] at hw
    obtain ⟨u,hes,hw⟩ := exceptBind_eq_ok.mp hw
    cases hw
    refine .dict ?_ (encodeEntries_ordered ?_ hes)
    · rw [List.map_map,List.pairwise_map,KeyMap.listed_eq_ofPairs hm]
      exact KeyMap.sorted_ofPairs m
    · intro e he
      obtain ⟨e,hmem,rfl⟩ := List.mem_map.mp he
      exact ih e (KeyMap.mem_listed hmem)
  | other =>
    rintro w ⟨⟩

/-- The encoding of a value depends neither on the enumeration of its maps nor on the type of its
strings, and its dictionaries are in key order. -/
theorem bEncode_canonical (v : Value Bytes) (hv : DistinctKeys v) :
    (∀ w, Reordered v w → bEncode w = bEncode v) ∧ ∀ text, bEncode v = .ok text → Ordered text :=
  ⟨fun _ h => h.encodeAny_eq hv,hv.ordered⟩

def twoMaps : Value Bytes :=
  .map [(ascii "b",.list [.int (-7)]),(ascii "a",.map [(ascii "y",.str (ascii "s")),(ascii "x",.int 0)])]

/-- The same in key order, with a byte slice for the string. -/
def twoMapsSorted : Value Bytes :=
  .map [(ascii "a",.map [(ascii "x",.int 0),(ascii "y",.bytes (ascii "s"))]),(ascii "b",.list [.int (-7)])]

theorem twoMaps_distinct : DistinctKeys twoMaps := by
  refine .map (by decide) ?_
  simp only [List.mem_cons,List.not_mem_nil,or_false,forall_eq_or_imp,forall_eq]
  refine ⟨.list ?_,.map (by decide) ?_⟩
  · simp only [List.mem_cons,List.not_mem_nil,or_false,forall_eq]
    exact .int _
  · simp only [List.mem_cons,List.not_mem_nil,or_false,forall_eq_or_imp,forall_eq]
    exact ⟨.str _,.int _⟩

theorem twoMaps_reordered : Reordered twoMaps twoMapsSorted := by
  refine .map (by decide) ?_
  simp only [List.mem_cons,List.not_mem_nil,or_false,Prod.mk.injEq]
  rintro k x y (⟨rfl,rfl⟩ | ⟨rfl,rfl⟩) (⟨hk,rfl⟩ | ⟨hk,rfl⟩)
  · exact absurd hk (by decide)
  · exact .list rfl (by simp [Reordered.int])
  · refine .map (by decide) ?_
    simp only [List.mem_cons,List.not_mem_nil,or_false,Prod.mk.injEq]
    rintro k x y (⟨rfl,rfl⟩ | ⟨rfl,rfl⟩) (⟨hk,rfl⟩ | ⟨hk,rfl⟩)
    · exact absurd hk (by decide)
    · exact .strBytes _
    · exact .int 0
    · exact absurd hk (by decide)
  · exact absurd hk (by decide)

theorem twoMaps_canonical : bEncode twoMaps = .ok (ascii "d1:ad1:xi0e1:y1:se1:bli-7eee") ∧
    bEncode twoMapsSorted = bEncode twoMaps ∧ Ordered (ascii "d1:ad1:xi0e1:y1:se1:bli-7eee") := by
  have htext : bEncode twoMaps = .ok (ascii "d1:ad1:xi0e1:y1:se1:bli-7eee") := by decide +kernel
  obtain ⟨hsame,hordered⟩ := bEncode_canonical twoMaps twoMaps_distinct
  exact ⟨htext,hsame _ twoMaps_reordered,hordered _ htext⟩

end DhtOcean.Bencode
