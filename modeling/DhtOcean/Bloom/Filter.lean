import Mathlib.Data.Finset.Sort
import DhtOcean.Foundation.BigEndian
import DhtOcean.Foundation.Transition

/-! # The bloom filter of known torrents

The filter holds a set of locations. Adding writes the locations of the data and
looking up reads the same ones, for any hash function. A saved filter is a header
of seventeen octets and the bitmap in a serialized form that is left open.
-/
namespace DhtOcean.Bloom
open Foundation

/-- The serialized form of a bitmap: reading undoes writing and leaves what follows. -/
structure BitmapCodec where
  writeTo : Finset UInt64 → Bytes
  readFrom : Bytes → Option (Finset UInt64 × Bytes)
  readFrom_writeTo : ∀ keys rest, readFrom (writeTo keys ++ rest) = some (keys,rest)

structure BloomFilter where
  m : UInt64
  n : UInt64
  k : UInt8
  keys : Finset UInt64
  deriving DecidableEq

def newBloomFilter (bits : UInt64) : BloomFilter := ⟨bits,0,7,∅⟩

/-- The locations of the data in a filter with these parameters. -/
def locations (baseHash : Bytes → UInt64) (m : UInt64) (k : UInt8) (data : Bytes) : List UInt64 :=
  (List.range k.toNat).map (fun i => baseHash (data ++ [UInt8.ofNat i]) % m)

namespace BloomFilter
variable (baseHash : Bytes → UInt64) (codec : BitmapCodec)

/-- `none` is the panic of a division by zero. -/
def getLocations (f : BloomFilter) (data : Bytes) : Option (List UInt64) :=
  if f.m = 0 ∧ f.k ≠ 0 then none else some (locations baseHash f.m f.k data)

def add (f : BloomFilter) (data : Bytes) : Option BloomFilter := do
  let locations ← f.getLocations baseHash data
  return { f with keys := locations.foldl (fun keys loc => insert loc keys) f.keys, n := f.n + 1 }

/-- `Exists`. -/
def doesExist (f : BloomFilter) (data : Bytes) : Option Bool := do
  let locations ← f.getLocations baseHash data
  return locations.all (fun loc => decide (loc ∈ f.keys))

def save (f : BloomFilter) : Bytes :=
  beBytes 8 f.m.toNat ++ (beBytes 8 f.n.toNat ++ ([f.k] ++ codec.writeTo f.keys))

def loadBloomFilter (reader : Bytes) : Option (BloomFilter × Bytes) := do
  let (m,reader) ← readFixed 8 (fun b => UInt64.ofNat (beValue b)) reader
  let (n,reader) ← readFixed 8 (fun b => UInt64.ofNat (beValue b)) reader
  let (k,reader) ← readFixed 1 (fun b => b.headD 0) reader
  let (keys,reader) ← codec.readFrom reader
  return (⟨m,n,k,keys⟩,reader)

end BloomFilter

inductive Op
  | add (data : Bytes)
  /-- The filter is saved, and loaded from a file that holds it and then `rest`. -/
  | reload (rest : Bytes)
  deriving DecidableEq, Repr

def Op.added : Op → Option Bytes
  | .add data => some data
  | .reload _ => none

def step (baseHash : Bytes → UInt64) (codec : BitmapCodec) (f : BloomFilter) : Op → Option BloomFilter
  | .add data => f.add baseHash data
  | .reload rest => (BloomFilter.loadBloomFilter codec (f.save codec ++ rest)).map Prod.fst

namespace BloomFilter
variable {baseHash : Bytes → UInt64} {codec : BitmapCodec} {f : BloomFilter} {data : Bytes}

theorem foldl_insert_eq (locs : List UInt64) (keys : Finset UInt64) :
    locs.foldl (fun keys loc => insert loc keys) keys = keys ∪ locs.toFinset := by
  induction locs generalizing keys with
  | nil => simp
  | cons loc locs ih => rw [List.foldl_cons,ih,List.toFinset_cons,Finset.insert_union,Finset.union_insert]

/-- The filter with all of the data in it, by the locations they have together. -/
def addAll (baseHash : Bytes → UInt64) (f : BloomFilter) (datas : List Bytes) : BloomFilter :=
  { f with
    keys := f.keys ∪ (datas.flatMap (locations baseHash f.m f.k)).toFinset
    n := f.n + UInt64.ofNat datas.length }

theorem add_eq (hm : f.m ≠ 0) : f.add baseHash data = some (f.addAll baseHash [data]) := by
  simp [add,getLocations,hm,foldl_insert_eq,addAll]

theorem doesExist_iff (hm : f.m ≠ 0) :
    f.doesExist baseHash data = some true ↔ ∀ loc ∈ locations baseHash f.m f.k data, loc ∈ f.keys := by
  simp [doesExist,getLocations,hm]

theorem addAll_addAll (f : BloomFilter) (xs ys : List Bytes) :
    (f.addAll baseHash xs).addAll baseHash ys = f.addAll baseHash (xs ++ ys) := by
  simp only [addAll,List.flatMap_append,List.toFinset_append,Finset.union_assoc,List.length_append,
    UInt64.ofNat_add,UInt64.add_assoc]

theorem loadBloomFilter_save (f : BloomFilter) (rest : Bytes) :
    loadBloomFilter codec (f.save codec ++ rest) = some (f,rest) := by
  have hm : UInt64.ofNat (beValue (beBytes 8 f.m.toNat)) = f.m := by
    rw [beValue_beBytes f.m.toNat_lt,UInt64.ofNat_toNat]
  have hn : UInt64.ofNat (beValue (beBytes 8 f.n.toNat)) = f.n := by
    rw [beValue_beBytes f.n.toNat_lt,UInt64.ofNat_toNat]
  simp only [loadBloomFilter,save,List.append_assoc,Option.bind_eq_bind,
    readFixed_append _ (length_beBytes 8 _),readFixed_append _ (List.length_singleton : [f.k].length = 1),
    Option.bind_some,codec.readFrom_writeTo,hm,hn]
  rfl

/-- What was added is there, however the additions were ordered and the filter was stored in between. -/
theorem run_eq (hm : f.m ≠ 0) (ops : List Op) :
    run (step baseHash codec) f ops = some (f.addAll baseHash (ops.filterMap Op.added)) := by
  induction ops generalizing f with
  | nil => simp [run,addAll]
  | cons op ops ih =>
    cases op with
    | add data =>
      rw [run,step,add_eq hm,Option.bind_some,ih (f := f.addAll baseHash [data]) hm,addAll_addAll]
      rfl
    | reload rest =>
      rw [run,step,loadBloomFilter_save,Option.map_some,Option.bind_some,ih hm]
      rfl

theorem addAll_perm {xs ys : List Bytes} (h : xs.Perm ys) : f.addAll baseHash xs = f.addAll baseHash ys := by
  rw [addAll,addAll,List.toFinset_eq_of_perm _ _ (h.flatMap_right _),h.length_eq]

end BloomFilter

/-- No false negatives in any run, exact round trips, and no trace of the order of the additions. -/
theorem bloom_no_false_negatives (baseHash : Bytes → UInt64) (codec : BitmapCodec) (m : UInt64) (hm : 0 < m)
    (ops : List Op) : ∃ f, run (step baseHash codec) (newBloomFilter m) ops = some f ∧
      (∀ data ∈ ops.filterMap Op.added, f.doesExist baseHash data = some true) ∧
      (∀ rest, ∃ g, BloomFilter.loadBloomFilter codec (f.save codec ++ rest) = some (g,rest) ∧
        (∀ data, g.doesExist baseHash data = f.doesExist baseHash data) ∧ g.m = f.m ∧ g.n = f.n ∧ g.k = f.k) ∧
      f.m = m ∧ f.k = 7 ∧ f.n = UInt64.ofNat (ops.filterMap Op.added).length ∧
      ∀ ops' : List Op, (ops'.filterMap Op.added).Perm (ops.filterMap Op.added) →
        run (step baseHash codec) (newBloomFilter m) ops' = some f := by
  have hm0 : (newBloomFilter m).m ≠ 0 := by
    intro h
    rw [show m = 0 from h] at hm
    exact absurd hm (by decide)
  refine ⟨_,BloomFilter.run_eq hm0 ops,?_,?_,rfl,rfl,?_,?_⟩
  · intro data hdata
    apply (BloomFilter.doesExist_iff (f := (newBloomFilter m).addAll baseHash _) hm0).mpr
    intro loc hloc
    rw [BloomFilter.addAll,Finset.mem_union,List.mem_toFinset]
    exact .inr (List.mem_flatMap.mpr ⟨data,hdata,hloc⟩)
  · intro rest
    exact ⟨_,BloomFilter.loadBloomFilter_save _ rest,fun _ => rfl,rfl,rfl,rfl⟩
  · simp [BloomFilter.addAll,newBloomFilter]
  · intro ops' hperm
    rw [BloomFilter.run_eq hm0,BloomFilter.addAll_perm hperm]

section Sample

/-- A plain form of a bitmap: an octet 1 before each key, and an octet 0 at the end. -/
def writeKeys (keys : Finset UInt64) : Bytes :=
  ((keys.image UInt64.toNat).sort (· ≤ ·)).flatMap (fun key => 1 :: beBytes 8 key) ++ [0]

def readKeys : ℕ → Bytes → Option (Finset UInt64 × Bytes)
  | 0, _ => none
  | _+1, [] => none
  | fuel+1, octet :: reader =>
    if octet = 0 then some (∅,reader)
    else do
      let (key,reader) ← readFixed 8 (fun b => UInt64.ofNat (beValue b)) reader
      let (keys,reader) ← readKeys fuel reader
      return (insert key keys,reader)

theorem readKeys_append {ns : List ℕ} (hns : ∀ n ∈ ns, n < 256^8) (fuel : ℕ) (hfuel : ns.length < fuel) (rest : Bytes) :
    readKeys fuel (ns.flatMap (fun key => 1 :: beBytes 8 key) ++ 0 :: rest) =
      some ((ns.map UInt64.ofNat).toFinset,rest) := by
  induction ns generalizing fuel with
  | nil =>
    obtain ⟨fuel,rfl⟩ := Nat.exists_eq_add_of_lt hfuel
    rfl
  | cons n ns ih =>
    obtain ⟨fuel,rfl⟩ : ∃ k, fuel = k + 1 := ⟨fuel - 1,by omega⟩
    have hn := hns n List.mem_cons_self
    rw [List.length_cons] at hfuel
    have htail := ih (fun k hk => hns k (List.mem_cons_of_mem _ hk)) fuel (by omega)
    rw [List.flatMap_cons,List.cons_append,List.cons_append,List.append_assoc,readKeys,if_neg (by decide),
      readFixed_append _ (length_beBytes 8 n)]
    simp only [Option.bind_eq_bind,Option.bind_some,htail,beValue_beBytes hn,List.map_cons,List.toFinset_cons]
    rfl

/-- The plain form is a serialized form as it should be. -/
def plainCodec : BitmapCodec where
  writeTo := writeKeys
  readFrom := fun reader => readKeys (reader.length + 1) reader
  readFrom_writeTo := by
    intro keys rest
    rw [writeKeys,List.append_assoc,List.singleton_append,readKeys_append]
    · congr 2
      ext key
      simp
    · intro n hn
      simp only [Finset.mem_sort,Finset.mem_image] at hn
      obtain ⟨key,-,rfl⟩ := hn
      exact key.toNat_lt
    · have hlen : ∀ ns : List ℕ, (ns.flatMap (fun key => 1 :: beBytes 8 key)).length = ns.length * 9 := by
        intro ns
        simp [List.length_flatMap]
      rw [List.length_append,hlen]
      omega

/-- Three additions with a round trip behind the first, under a hash that only counts octets. -/
def threeAdds : List Op := [.add [1,2],.reload [9],.add [],.add [7]]

theorem threeAdds_exist : ∃ f, run (step (fun b => UInt64.ofNat b.length) plainCodec) (newBloomFilter 1024) threeAdds = some f ∧
    f.doesExist (fun b => UInt64.ofNat b.length) [1,2] = some true ∧ f.n = 3 := by
  obtain ⟨f,hf,hexists,-,-,-,hn,-⟩ :=
    bloom_no_false_negatives (fun b => UInt64.ofNat b.length) plainCodec 1024 (by decide) threeAdds
  exact ⟨f,hf,hexists [1,2] (by decide),hn⟩

end Sample

end DhtOcean.Bloom
