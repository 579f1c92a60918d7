import DhtOcean.Foundation.Bytes
import DhtOcean.Foundation.KeyMap

/-! # Values that are encoded and decoded

A value is what a Go `any` holds, as far as the codec tells its dynamic types
apart. The representation of a byte slice is a parameter: a value to be encoded
holds contents, a decoded value holds views of the buffer it was read from. A
`Datum` is the meaning of both, with maps in key order.
-/
namespace DhtOcean.Bencode
open Foundation

/-- `other` is every dynamic type that the encoder does not list. A map is one of its enumerations. -/
inductive Value (B : Type)
  | int (n : Int64)
  | str (s : Bytes)
  | bytes (b : B)
  | list (xs : List (Value B))
  | map (m : List (Bytes × Value B))
  | other

abbrev Dict (B : Type) := List (Bytes × Value B)

/-- A decoded byte slice shares the array it was cut from; a slice built elsewhere owns its octets. -/
inductive Slice
  | view (off len : ℕ)
  | owned (b : Bytes)
  deriving DecidableEq, Repr

namespace Slice

/-- The octets that a slice currently shows, given those of the shared array. -/
def read (mem : Bytes) : Slice → Bytes
  | view off len => (mem.drop off).take len
  | owned b => b

def length : Slice → ℕ
  | view _ len => len
  | owned b => b.length

/-- A view can be extended to the end of the shared array. -/
def cap (mem : Bytes) : Slice → ℕ
  | view off _ => mem.length - off
  | owned b => b.length

end Slice

/-- What an encoding stands for, independent of any representation. -/
inductive Datum
  | int (n : Int64)
  | bytes (s : Bytes)
  | list (xs : List Datum)
  | dict (m : List (Bytes × Datum))

mutual
/-- The value with the octets of its byte slices in their place. -/
def Value.load {B : Type} (contents : B → Bytes) : Value B → Value Bytes
  | .int n => .int n
  | .str s => .str s
  | .bytes b => .bytes (contents b)
  | .list xs => .list (loadItems contents xs)
  | .map m => .map (loadEntries contents m)
  | .other => .other

def loadItems {B : Type} (contents : B → Bytes) : List (Value B) → List (Value Bytes)
  | [] => []
  | x :: xs => x.load contents :: loadItems contents xs

def loadEntries {B : Type} (contents : B → Bytes) : List (Bytes × Value B) → List (Bytes × Value Bytes)
  | [] => []
  | (k,x) :: m => (k,x.load contents) :: loadEntries contents m
end

section Denotation
variable {B : Type} (contents : B → Bytes)

mutual
/-- The meaning of a value whose dynamic types are all supported. -/
def Value.denote : Value B → Option Datum
  | .int n => some (.int n)
  | .str s => some (.bytes s)
  | .bytes b => some (.bytes (contents b))
  | .list xs => (denoteItems xs).map .list
  | .map m => (denoteEntries m).map (fun ps => .dict (KeyMap.ofPairs ps))
  | .other => none

def denoteItems : List (Value B) → Option (List Datum)
  | [] => some []
  | x :: xs => x.denote.bind (fun d => (denoteItems xs).map (d :: ·))

def denoteEntries : List (Bytes × Value B) → Option (List (Bytes × Datum))
  | [] => some []
  | (k,x) :: m => x.denote.bind (fun d => (denoteEntries m).map ((k,d) :: ·))
end

@[simp] theorem denoteItems_append_singleton {xs : List (Value B)} {ds : List Datum} {x : Value B} {d : Datum}
    (hxs : denoteItems contents xs = some ds) (hx : x.denote contents = some d) :
    denoteItems contents (xs ++ [x]) = some (ds ++ [d]) := by
  induction xs generalizing ds with
  | nil =>
    cases hxs
    simp [denoteItems,hx]
  | cons y xs ih =>
    simp only [denoteItems,Option.bind_eq_some_iff,Option.map_eq_some_iff] at hxs
    obtain ⟨dy,hy,es,hes,rfl⟩ := hxs
    simp [denoteItems,hy,ih hes]

/-- Writing a key of a map writes the same key of its meaning. -/
theorem denoteEntries_insert {m : Dict B} {ps : List (Bytes × Datum)} {x : Value B} {d : Datum} (k : Bytes)
    (hm : denoteEntries contents m = some ps) (hx : x.denote contents = some d) :
    denoteEntries contents (KeyMap.insert k x m) = some (KeyMap.insert k d ps) := by
  induction m generalizing ps with
  | nil =>
    cases hm
    simp [KeyMap.insert,denoteEntries,hx]
  | cons e m ih =>
    obtain ⟨k',y⟩ := e
    simp only [denoteEntries,Option.bind_eq_some_iff,Option.map_eq_some_iff] at hm
    obtain ⟨dy,hy,qs,hqs,rfl⟩ := hm
    simp only [KeyMap.insert]
    split
    · simp [denoteEntries,hx,hy,hqs]
    · split
      · simp [denoteEntries,hy,ih hqs]
      · simp [denoteEntries,hx,hqs]

theorem denoteEntries_keys {m : Dict B} {ps : List (Bytes × Datum)}
    (hm : denoteEntries contents m = some ps) : ps.map Prod.fst = m.map Prod.fst := by
  induction m generalizing ps with
  | nil =>
    cases hm
    rfl
  | cons e m ih =>
    obtain ⟨k,x⟩ := e
    simp only [denoteEntries,Option.bind_eq_some_iff,Option.map_eq_some_iff] at hm
    obtain ⟨d,-,qs,hqs,rfl⟩ := hm
    simp [ih hqs]

mutual
theorem Value.denote_load : ∀ v : Value B, (v.load contents).denote id = v.denote contents
  | .int _ => rfl
  | .str _ => rfl
  | .bytes _ => rfl
  | .list xs => by rw [Value.load,Value.denote,Value.denote,denoteItems_load xs]
  | .map m => by rw [Value.load,Value.denote,Value.denote,denoteEntries_load m]
  | .other => rfl

theorem denoteItems_load : ∀ xs : List (Value B), denoteItems id (loadItems contents xs) = denoteItems contents xs
  | [] => rfl
  | x :: xs => by rw [loadItems,denoteItems,denoteItems,x.denote_load,denoteItems_load xs]

theorem denoteEntries_load : ∀ m : List (Bytes × Value B),
    denoteEntries id (loadEntries contents m) = denoteEntries contents m
  | [] => rfl
  | (k,x) :: m => by rw [loadEntries,denoteEntries,denoteEntries,x.denote_load,denoteEntries_load m]
end

/-- A key of the meaning is a key of the map. -/
theorem denoteEntries_lookup {m : Dict B} {ps : List (Bytes × Datum)} {k : Bytes} {d : Datum}
    (hm : denoteEntries contents m = some ps) (h : ps.lookup k = some d) :
    ∃ v, m.lookup k = some v ∧ v.denote contents = some d := by
  induction m generalizing ps with
  | nil =>
    cases hm
    cases h
  | cons e m ih =>
    obtain ⟨key,x⟩ := e
    simp only [denoteEntries,Option.bind_eq_some_iff,Option.map_eq_some_iff] at hm
    obtain ⟨dx,hx,qs,hqs,rfl⟩ := hm
    rw [List.lookup_cons] at h ⊢
    by_cases hk : k == key
    · simp only [hk,Option.some.injEq] at h ⊢
      exact ⟨x,rfl,h ▸ hx⟩
    · simp only [hk] at h ⊢
      exact ih hqs h

theorem Value.denote_int {v : Value B} {n : Int64} (h : v.denote contents = some (.int n)) : v = .int n := by
  cases v <;> simp_all [Value.denote]

theorem Value.denote_dict {v : Value B} {e : List (Bytes × Datum)} (h : v.denote contents = some (.dict e)) :
    ∃ m, v = .map m := by
  cases v <;> simp_all [Value.denote]

/-- Another enumeration of a map means another enumeration of the same entries. -/
theorem denoteEntries_perm {m n : Dict B} {ps : List (Bytes × Datum)} (h : m.Perm n)
    (hm : denoteEntries contents m = some ps) : ∃ qs, denoteEntries contents n = some qs ∧ ps.Perm qs := by
  induction h generalizing ps with
  | nil => exact ⟨ps,hm,.refl _⟩
  | cons e _ ih =>
    obtain ⟨k,x⟩ := e
    simp only [denoteEntries,Option.bind_eq_some_iff,Option.map_eq_some_iff] at hm
    obtain ⟨d,hd,rs,hrs,rfl⟩ := hm
    obtain ⟨qs,hqs,hp⟩ := ih hrs
    exact ⟨(k,d) :: qs,by simp [denoteEntries,hd,hqs],hp.cons _⟩
  | swap e f m =>
    obtain ⟨k,x⟩ := e
    obtain ⟨j,y⟩ := f
    simp only [denoteEntries,Option.bind_eq_some_iff,Option.map_eq_some_iff] at hm
    obtain ⟨c,hc,_,⟨d,hd,rs,hrs,rfl⟩,rfl⟩ := hm
    exact ⟨(k,d) :: (j,c) :: rs,by simp [denoteEntries,hc,hd,hrs],.swap _ _ _⟩
  | trans _ _ ih₁ ih₂ =>
    obtain ⟨qs,hqs,hp⟩ := ih₁ hm
    obtain ⟨rs,hrs,hq⟩ := ih₂ hqs
    exact ⟨rs,hrs,hp.trans hq⟩

end Denotation

end DhtOcean.Bencode
