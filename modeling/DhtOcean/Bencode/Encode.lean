import DhtOcean.Bencode.Grammar

/-! # The recursive encoder

A map is written by sorting its keys and looking each of them up, so the
enumeration order of the map does not reach the output. Everything that is
written is a word of the grammar for the meaning of the value.
-/
namespace DhtOcean.Bencode
open Foundation

inductive EncodeError
  | unsupportedType
  deriving DecidableEq, Repr

def encodeInt (val : Int64) : Bytes := 'i'.toUInt8 :: itoa val.toInt ++ ['e'.toUInt8]

/-- Octets behind their length. -/
def sized (data : Bytes) : Bytes := itoa data.length ++ ':'.toUInt8 :: data

def encodeString (val : Bytes) : Bytes := sized val

def encodeBytes (data : Bytes) : Bytes := sized data

/-- Keys with the encodings of their values, in the order given. -/
def encodeEntries : List (Bytes × Except EncodeError Bytes) → Except EncodeError Bytes
  | [] => .ok []
  | (k,v) :: es => do
    let w ← v
    let ws ← encodeEntries es
    return encodeString k ++ w ++ ws

def encodeMap (m : List (Bytes × Except EncodeError Bytes)) : Except EncodeError Bytes := do
  let w ← encodeEntries (KeyMap.listed m)
  return 'd'.toUInt8 :: w ++ ['e'.toUInt8]

mutual
def encodeAny : Value Bytes → Except EncodeError Bytes
  | .int n => .ok (encodeInt n)
  | .str s => .ok (encodeString s)
  | .bytes b => .ok (encodeBytes b)
  | .map m => encodeMap (encodeValues m)
  | .list xs => do
    let w ← encodeList xs
    return 'l'.toUInt8 :: w ++ ['e'.toUInt8]
  | .other => .error .unsupportedType

/-- The loop of the source's `encodeList`. -/
def encodeList : List (Value Bytes) → Except EncodeError Bytes
  | [] => .ok []
  | x :: xs => do
    let w ← encodeAny x
    let ws ← encodeList xs
    return w ++ ws

def encodeValues : List (Bytes × Value Bytes) → List (Bytes × Except EncodeError Bytes)
  | [] => []
  | (k,v) :: m => (k,encodeAny v) :: encodeValues m
end

def bEncode (obj : Value Bytes) : Except EncodeError Bytes := encodeAny obj

/-- Built from 64-bit integers, strings, byte slices, lists and maps. The length of
a Go string or slice is an `int`, and the keys of a Go map are distinct. -/
inductive Bencodable : Value Bytes → Prop
  | int (n : Int64) : Bencodable (.int n)
  | str {s : Bytes} : s.length < 2^63 → Bencodable (.str s)
  | bytes {b : Bytes} : b.length < 2^63 → Bencodable (.bytes b)
  | list {xs : List (Value Bytes)} : (∀ x ∈ xs, Bencodable x) → Bencodable (.list xs)
  | map {m : Dict Bytes} : (m.map Prod.fst).Nodup → (∀ e ∈ m, e.1.length < 2^63) →
      (∀ e ∈ m, Bencodable e.2) → Bencodable (.map m)

theorem encodeValues_eq (m : Dict Bytes) : encodeValues m = m.map (Prod.map id encodeAny) := by
  induction m with
  | nil => rfl
  | cons e m ih =>
    rw [encodeValues,ih]
    rfl

theorem sized_word {s : Bytes} (hs : s.length < 2^63) : StringWord (sized s) s := by
  refine ⟨formatNat s.length,formatNat_ne_nil _,fun _ hb => formatNat_isDigit hb,digitsValue_formatNat _,hs,?_⟩
  simp [sized,itoa]

/-- `v` is written as a word for its meaning. -/
def WrittenAs (v : Value Bytes) : Prop :=
  ∃ w d, encodeAny v = .ok w ∧ v.denote id = some d ∧ Word w d

theorem encodeList_items {xs : List (Value Bytes)} (h : ∀ x ∈ xs, WrittenAs x) :
    ∃ w ds, encodeList xs = .ok w ∧ denoteItems id xs = some ds ∧ Items w ds := by
  induction xs with
  | nil => exact ⟨[],[],rfl,rfl,.nil⟩
  | cons x xs ih =>
    obtain ⟨w,d,hw,hd,hword⟩ := h x List.mem_cons_self
    obtain ⟨ws,ds,hws,hds,hitems⟩ := ih (fun y hy => h y (List.mem_cons_of_mem _ hy))
    refine ⟨w ++ ws,d :: ds,?_,by simp [denoteItems,hd,hds],.cons hword hitems⟩
    rw [encodeList,hw,hws]
    rfl

theorem encodeEntries_entries {m : Dict Bytes} (hk : ∀ e ∈ m, e.1.length < 2^63)
    (h : ∀ e ∈ m, WrittenAs e.2) :
    ∃ w ps, encodeEntries (m.map (Prod.map id encodeAny)) = .ok w ∧ denoteEntries id m = some ps ∧
      Entries w ps := by
  induction m with
  | nil => exact ⟨[],[],rfl,rfl,.nil⟩
  | cons e m ih =>
    obtain ⟨k,x⟩ := e
    obtain ⟨w,d,hw,hd,hword⟩ := h (k,x) List.mem_cons_self
    obtain ⟨ws,ps,hws,hps,hentries⟩ := ih (fun y hy => hk y (List.mem_cons_of_mem _ hy))
      (fun y hy => h y (List.mem_cons_of_mem _ hy))
    refine ⟨sized k ++ w ++ ws,(k,d) :: ps,?_,by simp [denoteEntries,hd,hps],?_⟩
    swap
    · exact .cons (sized_word (hk (k,x) List.mem_cons_self)) hword hentries
    simp only [List.map_cons,Prod.map_apply,id_eq,encodeEntries,hw,hws]
    rfl

/-- Encoding succeeds on every supported value and writes a word for its meaning. -/
theorem Bencodable.written {v : Value Bytes} (hv : Bencodable v) : WrittenAs v := by
  induction hv with
  | int n => exact ⟨_,_,rfl,rfl,.int (atoi_itoa n)⟩
  | str hs => exact ⟨_,_,rfl,rfl,.bytes (sized_word hs)⟩
  | bytes hb => exact ⟨_,_,rfl,rfl,.bytes (sized_word hb)⟩
  | list _ ih =>
    obtain ⟨w,ds,hw,hds,hitems⟩ := encodeList_items ih
    refine ⟨_,.list ds,?_,by simp [Value.denote,hds],.list hitems⟩
    rw [encodeAny,hw]
    rfl
  | @map m hm hk _ ih =>
    obtain ⟨w,ps,hw,hps,hentries⟩ := encodeEntries_entries (fun e he => hk e (KeyMap.mem_listed he))
      (fun e he => ih e (KeyMap.mem_listed he))
    obtain ⟨qs,hqs,hperm⟩ := denoteEntries_perm id (KeyMap.listed_perm hm) hps
    have hnodup : (ps.map Prod.fst).Nodup := by
      rw [denoteEntries_keys id hps]
      exact ((KeyMap.listed_perm hm).map Prod.fst).nodup_iff.mpr hm
    refine ⟨_,.dict (KeyMap.ofPairs ps),?_,?_,.dict hentries⟩
    · rw [encodeAny,encodeMap,encodeValues_eq,KeyMap.listed_map,hw]
      rfl
    · simp only [Value.denote,hqs,Option.map_some,KeyMap.ofPairs_perm hnodup hperm]

theorem Bencodable.word {v : Value Bytes} {w : Bytes} {d : Datum} (hv : Bencodable v) (hw : bEncode v = .ok w)
    (hd : v.denote id = some d) : Word w d := by
  obtain ⟨w',d',hw',hd',hword⟩ := hv.written
  obtain rfl : w' = w := Except.ok.inj (hw'.symm.trans hw)
  obtain rfl : d' = d := Option.some.inj (hd'.symm.trans hd)
  exact hword

end DhtOcean.Bencode
