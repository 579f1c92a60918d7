import DhtOcean.Bloom.Filter
import DhtOcean.Krpc.Exchange

/-! # Looking up the byte strings of a datagram

To find the locations of some data the filter appends an octet to it, round by round.
An info hash that was announced is a slice of the datagram, which goes on behind it, so
the octet is written into the datagram. Whatever the filter is asked about and given,
its answers are those for the data as received, and the byte strings of the datagram
stay as they are.
-/
namespace DhtOcean.Bloom
open Foundation Bencode Krpc

inductive Access (D : Type)
  | add (data : D)
  | exist (data : D)

namespace Access
variable {D E : Type}

def data : Access D → D
  | .add data => data
  | .exist data => data

def map (f : D → E) : Access D → Access E
  | .add data => .add (f data)
  | .exist data => .exist (f data)

end Access

/-- The filter and the answers that it has given. -/
structure Answered where
  filter : BloomFilter
  answers : List Bool

section Model
variable (baseHash : Bytes → UInt64)

/-- The rounds of `getLocations`. -/
def locationsIn (m : UInt64) (data : Slice) : List ℕ → Bytes → List UInt64 × Bytes
  | [], mem => ([],mem)
  | i :: rounds, mem =>
    let (key,mem) := appendTo mem data [UInt8.ofNat i]
    let (locations,mem') := locationsIn m data rounds mem
    (baseHash (key.read mem) % m :: locations,mem')

def getLocationsIn (f : BloomFilter) (data : Slice) (mem : Bytes) : Option (List UInt64 × Bytes) :=
  if f.m = 0 ∧ f.k ≠ 0 then none else some (locationsIn baseHash f.m data (List.range f.k.toNat) mem)

/-- The filter on data of its own. -/
def access (s : Answered) : Access Bytes → Option Answered
  | .add data => do
    let filter ← s.filter.add baseHash data
    return ⟨filter,s.answers⟩
  | .exist data => do
    let exist ← s.filter.doesExist baseHash data
    return ⟨s.filter,s.answers ++ [exist]⟩

/-- The filter on slices of the datagram. -/
def accessIn (s : Answered × Bytes) : Access Slice → Option (Answered × Bytes)
  | .add data => do
    let (locations,mem) ← getLocationsIn baseHash s.1.filter data s.2
    let keys := locations.foldl (fun keys loc => insert loc keys) s.1.filter.keys
    return (⟨{ s.1.filter with keys := keys, n := s.1.filter.n + 1 },s.1.answers⟩,mem)
  | .exist data => do
    let (locations,mem) ← getLocationsIn baseHash s.1.filter data s.2
    let exist := locations.all (fun loc => decide (loc ∈ s.1.filter.keys))
    return (⟨s.1.filter,s.1.answers ++ [exist]⟩,mem)

end Model

section InPlace
variable (baseHash : Bytes → UInt64) {ss : List Span} (hss : (ss.map Span.wide).Pairwise Span.Apart)
include hss

/-- The appended octet is written behind the slice, where no byte string is. -/
theorem appendTo_octet {data : Slice} (hdata : data.spans ⊆ ss) (mem : Bytes) (octet : UInt8) :
    ∃ key mem', appendTo mem data [octet] = (key,mem') ∧ key.read mem' = data.read mem ++ [octet] ∧ Unchanged ss mem mem' := by
  cases data with
  | owned b => exact ⟨_,mem,rfl,rfl,.refl _ _⟩
  | view off len =>
    by_cases hroom : len + 1 ≤ (Slice.view off len).cap mem
    · simp only [Slice.cap] at hroom
      have hroom' : off + len + 1 ≤ mem.length := by omega
      refine ⟨_,_,if_pos hroom,?_,?_⟩
      · have hfront : (mem.take (off + len)).length = off + len := List.length_take_of_le (by omega)
        simp only [Slice.read,overwrite,List.append_assoc]
        rw [List.drop_append_of_le_length (by omega),List.drop_take,Nat.add_sub_cancel_left,List.take_append,
          List.length_take,List.length_drop,Nat.min_eq_left (by omega : len ≤ mem.length - off),List.take_take,
          Nat.min_eq_right (Nat.le_add_right _ _),Nat.add_sub_cancel_left]
        rfl
      · intro t ht
        have hs : (⟨off,len⟩ : Span) ∈ ss := hdata (List.mem_singleton_self _)
        exact Span.read_overwrite (by simpa using hroom') (Span.apart_behind hss hs ht)
    · exact ⟨_,mem,if_neg hroom,rfl,.refl _ _⟩

theorem locationsIn_eq {data : Slice} (hdata : data.spans ⊆ ss) (m : UInt64) (rounds : List ℕ) (mem : Bytes) :
    ∃ mem', locationsIn baseHash m data rounds mem =
        (rounds.map (fun i => baseHash (data.read mem ++ [UInt8.ofNat i]) % m),mem') ∧ Unchanged ss mem mem' := by
  induction rounds generalizing mem with
  | nil => exact ⟨mem,rfl,.refl _ _⟩
  | cons i rounds ih =>
    obtain ⟨key,mem₁,happend,hkey,hkeep⟩ := appendTo_octet hss hdata mem (UInt8.ofNat i)
    obtain ⟨mem₂,hrest,hkeep'⟩ := ih mem₁
    refine ⟨mem₂,?_,hkeep.trans hkeep'⟩
    rw [locationsIn,happend]
    dsimp only
    rw [hrest,hkey,Slice.read_unchanged (fun t ht => hkeep t (hdata ht)),List.map_cons]

theorem getLocationsIn_eq {data : Slice} (hdata : data.spans ⊆ ss) (f : BloomFilter) (mem : Bytes) :
    ∃ mem', getLocationsIn baseHash f data mem = (f.getLocations baseHash (data.read mem)).map (·,mem') ∧
      Unchanged ss mem mem' := by
  obtain ⟨mem',hlocations,hkeep⟩ := locationsIn_eq baseHash hss hdata f.m (List.range f.k.toNat) mem
  refine ⟨mem',?_,hkeep⟩
  unfold getLocationsIn BloomFilter.getLocations
  split
  · rfl
  · rw [hlocations]
    rfl

/-- One access in place answers as one on data of its own. -/
theorem accessIn_eq {a : Access Slice} (ha : a.data.spans ⊆ ss) (s : Answered) (mem : Bytes) :
    ∃ mem', accessIn baseHash (s,mem) a = (access baseHash s (a.map (Slice.read mem))).map (·,mem') ∧
      Unchanged ss mem mem' := by
  obtain ⟨mem',hlocations,hkeep⟩ := getLocationsIn_eq baseHash hss ha s.filter mem
  refine ⟨mem',?_,hkeep⟩
  cases a with
  | add data =>
    simp only [Access.data] at hlocations
    simp only [accessIn,access,Access.map,BloomFilter.add,hlocations]
    cases s.filter.getLocations baseHash (data.read mem) <;> rfl
  | exist data =>
    simp only [Access.data] at hlocations
    simp only [accessIn,access,Access.map,BloomFilter.doesExist,hlocations]
    cases s.filter.getLocations baseHash (data.read mem) <;> rfl

/-- All accesses answer for the data that was there at first: none of them changes it. -/
theorem run_accessIn (accesses : List (Access Slice)) (ha : ∀ a ∈ accesses, a.data.spans ⊆ ss) (s : Answered) (mem : Bytes) :
    ∃ mem', run (accessIn baseHash) (s,mem) accesses =
        (run (access baseHash) s (accesses.map (Access.map (Slice.read mem)))).map (·,mem') ∧ Unchanged ss mem mem' := by
  induction accesses generalizing s mem with
  | nil => exact ⟨mem,rfl,.refl _ _⟩
  | cons a accesses ih =>
    obtain ⟨hfirst,hrest⟩ := List.forall_mem_cons.mp ha
    obtain ⟨mem₁,hstep,hkeep⟩ := accessIn_eq baseHash hss hfirst s mem
    rw [run,hstep,List.map_cons,run]
    cases access baseHash s (a.map (Slice.read mem)) with
    | none => exact ⟨mem,rfl,.refl _ _⟩
    | some s₁ =>
      obtain ⟨mem₂,hrun,hkeep'⟩ := ih hrest s₁ mem₁
      refine ⟨mem₂,?_,hkeep.trans hkeep'⟩
      have hsame : accesses.map (Access.map (Slice.read mem₁)) = accesses.map (Access.map (Slice.read mem)) := by
        apply List.map_congr_left
        intro b hb
        have hread := Slice.read_unchanged (fun t ht => hkeep t (hrest b hb ht))
        cases b <;> exact congrArg _ hread
      rw [Option.map_some,Option.bind_some,Option.bind_some,hrun,hsame]

end InPlace

/-- The filter may be asked about the byte strings of a datagram, and given them, in place and in any
order: it answers as for copies of them, and the datagram reads as before. -/
theorem accesses_in_place (baseHash : Bytes → UInt64) (buf : Bytes) (addr : AddrPort) (p : Packet AddrPort)
    (hdecode : (newPacketFromBuffer buf addr).decode = .ok p) (accesses : List (Access Slice))
    (ha : ∀ a ∈ accesses, a.data.spans ⊆ (Value.map p.data).spans) (s : Answered) (mem : Bytes) :
    ∃ mem', run (accessIn baseHash) (s,mem) accesses =
        (run (access baseHash) s (accesses.map (Access.map (Slice.read mem)))).map (·,mem') ∧
      (Value.map p.data).load (Slice.read mem') = (Value.map p.data).load (Slice.read mem) := by
  obtain ⟨-,hv⟩ := bDecode_of_decode hdecode
  obtain ⟨mem',hrun,hkeep⟩ := run_accessIn baseHash (bDecode_wide hv) accesses ha s mem
  exact ⟨mem',hrun,Value.load_unchanged _ hkeep⟩

/-- The announced hash is not known, then it is added, then it is known; and the datagram reads as before. -/
theorem announceText_in_place : ∃ p data mem, (newPacketFromBuffer announceText localPeer).decode = .ok p ∧
    Slice.read announceText data = ascii "bbbbbbbbbbbbbbbbbbbb" ∧
    (run (accessIn (fun b => UInt64.ofNat b.length)) (⟨newBloomFilter 1024,[]⟩,announceText)
      [.exist data,.add data,.exist data]).map (fun r => (r.1.answers,r.2)) = some ([false,true],mem) ∧
    (Value.map p.data).load (Slice.read mem) = (Value.map p.data).load (Slice.read announceText) := by
  obtain ⟨p,t,m,hdecode,hq,-,hargs⟩ := (sampleEntries_asks _).query_of_means announceText_means localPeer
  obtain ⟨data,hdata,hread⟩ := hargs (ascii "info_hash") (ascii "bbbbbbbbbbbbbbbbbbbb") rfl
  have hspans : data.spans ⊆ (Value.map p.data).spans := by
    intro s hs
    exact spans_of_lookup hq.arguments (spans_of_lookup (v := .bytes data) hdata hs)
  have hall : ∀ a ∈ [Access.exist data,.add data,.exist data], a.data.spans ⊆ (Value.map p.data).spans := by
    intro a ha
    simp only [List.mem_cons,List.not_mem_nil,or_false] at ha
    rcases ha with rfl | rfl | rfl <;> exact hspans
  obtain ⟨mem,hrun,hload⟩ := accesses_in_place (fun b => UInt64.ofNat b.length) announceText localPeer p hdecode
    [.exist data,.add data,.exist data] hall ⟨newBloomFilter 1024,[]⟩ announceText
  refine ⟨p,data,mem,hdecode,hread,?_,hload⟩
  rw [hrun]
  simp only [List.map_cons,List.map_nil,Access.map,hread]
  rfl

end DhtOcean.Bloom
