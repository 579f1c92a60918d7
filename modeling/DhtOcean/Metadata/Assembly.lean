import DhtOcean.Metadata.Fetch

/-! # Assembling pieces

Each piece of a text is copied to the place its number gives it. After any
pieces were copied, in any order, the buffer agrees with the text wherever one of
them lies; once all of them were, it is the text.
-/
namespace DhtOcean.Metadata
open Foundation Bencode

/-- The octets of piece `i`. -/
def pieceOf (m : Bytes) (i : ℕ) : Bytes := (m.drop (i*pieceLength)).take pieceLength

def pieceCount (m : Bytes) : ℕ := (m.length + (pieceLength - 1)) / pieceLength

theorem getElem?_pieceOf (m : Bytes) (i j : ℕ) :
    (pieceOf m i)[j]? = if j < pieceLength then m[i*pieceLength + j]? else none := by
  rw [pieceOf,List.getElem?_take,List.getElem?_drop]

theorem length_pieceOf (m : Bytes) (i : ℕ) :
    (pieceOf m i).length = min pieceLength (m.length - i*pieceLength) := by
  rw [pieceOf,List.length_take,List.length_drop]

theorem lt_pieceCount {m : Bytes} {i : ℕ} : i < pieceCount m ↔ i*pieceLength < m.length := by
  unfold pieceCount pieceLength
  omega

/-- The buffer has the length of the text and agrees with it on the pieces copied so far. -/
structure Partly (m : Bytes) (copied : List ℕ) (raw : Bytes) : Prop where
  length : raw.length = m.length
  agrees : ∀ j, j / pieceLength ∈ copied → raw[j]? = m[j]?

theorem Partly.complete {m raw : Bytes} {copied : List ℕ} (h : Partly m copied raw)
    (hall : ∀ i, i < pieceCount m → i ∈ copied) : raw = m := by
  apply List.ext_getElem?
  intro j
  by_cases hj : j < m.length
  · refine h.agrees j (hall _ (lt_pieceCount.mpr ?_))
    have := Nat.div_mul_le_self j pieceLength
    omega
  · rw [List.getElem?_eq_none (by rw [h.length]; omega),List.getElem?_eq_none (by omega)]

theorem partly_nil (m : Bytes) : Partly m [] (List.replicate m.length 0) :=
  ⟨List.length_replicate,fun _ hj => by cases hj⟩

/-- Copying a piece leaves the others as they are. -/
theorem Partly.overwrite {m raw : Bytes} {copied : List ℕ} {i : ℕ} (h : Partly m copied raw)
    (hi : i < pieceCount m) : Partly m (i :: copied) (overwrite raw (i*pieceLength) (pieceOf m i)) := by
  have hlen := length_pieceOf m i
  have hfit : i*pieceLength + (pieceOf m i).length ≤ raw.length := by
    have := lt_pieceCount.mp hi
    rw [h.length]
    omega
  refine ⟨(length_overwrite hfit).trans h.length,?_⟩
  intro j hj
  rw [getElem?_overwrite hfit]
  by_cases hin : i*pieceLength ≤ j ∧ j < i*pieceLength + (pieceOf m i).length
  · rw [if_pos hin,getElem?_pieceOf,if_pos (by omega)]
    congr 1
    omega
  · rw [if_neg hin]
    rcases List.mem_cons.mp hj with hj | hj
    · -- Inside the piece but behind its end: only where the text has ended too.
      have hend : m.length ≤ j := by
        have hmod := Nat.div_add_mod j pieceLength
        have hlt := Nat.mod_lt j (show 0 < pieceLength by decide)
        rw [hj,Nat.mul_comm] at hmod
        omega
      rw [List.getElem?_eq_none (by rw [h.length]; exact hend),List.getElem?_eq_none hend]
    · exact h.agrees j hj

theorem placePiece_pieceOf {m raw : Bytes} {i : ℕ} (hlen : raw.length = m.length)
    (hmax : m.length ≤ maxMetadataSize) (hi : i < pieceCount m) :
    placePiece raw ⟨pieceOf m i,Int64.ofNat i⟩ = .ok (overwrite raw (i*pieceLength) (pieceOf m i)) := by
  have hlt := lt_pieceCount.mp hi
  have hpiece := length_pieceOf m i
  unfold maxMetadataSize at hmax
  have hlo : (Int64.ofNat i * Int64.ofNat pieceLength).toInt = (i*pieceLength : ℕ) := by
    rw [← Int64.ofNat_mul,Int64.toInt_ofNat_of_lt (by omega)]
  have htake : (pieceOf m i).take (raw.length - i*pieceLength) = pieceOf m i := by
    apply List.take_of_length_le
    omega
  simp only [placePiece,hlo,Int.toNat_natCast,htake]
  rw [if_neg (by omega)]

/-- Pieces in any order, each at its place. -/
theorem placePieces_partly {m raw : Bytes} {copied : List ℕ} (hmax : m.length ≤ maxMetadataSize)
    (order : List ℕ) (hin : ∀ i ∈ order, i < pieceCount m) (h : Partly m copied raw) :
    ∃ raw', placePieces (order.map fun i => ⟨pieceOf m i,Int64.ofNat i⟩) raw = .ok raw' ∧
      Partly m (order.reverse ++ copied) raw' := by
  induction order generalizing raw copied with
  | nil => exact ⟨raw,rfl,h⟩
  | cons i order ih =>
    have hi := hin i List.mem_cons_self
    obtain ⟨raw',hr,hp⟩ := ih (fun k hk => hin k (List.mem_cons_of_mem _ hk)) (h.overwrite hi)
    refine ⟨raw',?_,by simpa using hp⟩
    rw [List.map_cons,placePieces,placePiece_pieceOf h.length hmax hi]
    exact hr

/-- Every order of all the pieces gives the text back. -/
theorem assemble_pieces {m : Bytes} {order : List ℕ} (hmax : m.length ≤ maxMetadataSize)
    (horder : order.Perm (List.range (pieceCount m))) :
    assemble (Int64.ofNat m.length) (order.map fun i => ⟨pieceOf m i,Int64.ofNat i⟩) = .ok m := by
  have hsize : (Int64.ofNat m.length).toInt = m.length :=
    Int64.toInt_ofNat_of_lt (by unfold maxMetadataSize at hmax; omega)
  have hin : ∀ i ∈ order, i < pieceCount m := fun i hi => List.mem_range.mp (horder.mem_iff.mp hi)
  obtain ⟨raw,hr,hp⟩ := placePieces_partly hmax order hin (partly_nil m)
  have hraw : raw = m := by
    apply hp.complete
    intro i hi
    simpa using horder.mem_iff.mpr (List.mem_range.mpr hi)
  rw [assemble,hsize,if_neg (by omega),Int.toNat_natCast,hr,hraw]

theorem numPieces_ofNat {m : Bytes} (hmax : m.length ≤ maxMetadataSize) :
    numPieces (Int64.ofNat m.length) = pieceCount m := by
  unfold maxMetadataSize at hmax
  rw [numPieces,Int64.toInt_ofNat_of_lt (by omega),Int.toNat_natCast,pieceCount]

end DhtOcean.Metadata
