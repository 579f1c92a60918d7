import DhtOcean.Bencode.Grammar
import DhtOcean.Bencode.Decode

/-! # What is read is decoded

Text that the lenient reading takes for a value is decoded to the meaning of
that value, at any position of any buffer. A word of the grammar is therefore
decoded up to its end, whatever precedes and follows it.
-/
namespace DhtOcean.Bencode
open Foundation

/-- The offset of the text behind a value, or one past the buffer when the value was cut off. -/
def Behind (buf : Bytes) (off : ℕ) : Option Bytes → Prop
  | some suf => buf.drop off = suf ∧ off ≤ buf.length
  | none => buf.length < off

theorem behind_of_drop {buf w suf : Bytes} {pos : ℕ} (h : buf.drop pos = w ++ suf) (hw : w ≠ []) :
    Behind buf (pos + w.length) (some suf) := by
  have hlen := length_of_drop h (by simp [hw])
  rw [List.length_append] at hlen
  exact ⟨drop_add_of_drop h,by omega⟩

theorem Behind.eq {buf w suf : Bytes} {pos off : ℕ} (h : buf.drop pos = w ++ suf) (hw : w ≠ [])
    (hb : Behind buf off (some suf)) : off = pos + w.length := by
  have hlen := length_of_drop h (by simp [hw])
  have hsuf := congrArg List.length hb.1
  have hle := hb.2
  rw [List.length_append] at hlen
  rw [List.length_drop] at hsuf
  omega

theorem atoi_notMem {t : Bytes} {n : Int64} (ht : atoi t = .ok n) : 'e'.toUInt8 ∉ t := by
  intro hmem
  rcases atoi_octets ht hmem with hd | hd | hd <;> revert hd <;> decide

theorem decodeInt_closed {buf t suf : Bytes} {pos : ℕ} {n : Int64} (ht : atoi t = .ok n)
    (h : buf.drop pos = 'i'.toUInt8 :: t ++ 'e'.toUInt8 :: suf) :
    decodeInt buf pos = .ok (n,pos + ('i'.toUInt8 :: t ++ ['e'.toUInt8]).length) := by
  have h₁ : buf.drop (pos+1) = t ++ 'e'.toUInt8 :: suf := drop_succ_of_drop h
  simp only [decodeInt,indexFrom_eq h₁ (atoi_notMem ht),drop_take_of_drop h₁,ht]
  simp only [List.cons_append,List.length_cons,List.length_append,List.length_nil]
  congr 2
  omega

/-- Without its closing octet an integer still ends with the buffer. -/
theorem decodeInt_open {buf t : Bytes} {pos : ℕ} {n : Int64} (ht : atoi t = .ok n)
    (h : buf.drop pos = 'i'.toUInt8 :: t) : decodeInt buf pos = .ok (n,buf.length + 1) := by
  have h₁ : buf.drop (pos+1) = t := drop_succ_of_drop h
  have h₂ : buf.drop (pos+1) = t ++ [] := by simpa using h₁
  have hlen := length_of_drop h (by simp)
  have hi : indexFrom 'e'.toUInt8 buf (pos+1) = pos + 1 + t.length := by
    rw [indexFrom_absent (h₁ ▸ atoi_notMem ht),h₁]
  simp only [List.length_cons] at hlen
  simp only [decodeInt,hi,drop_take_of_drop h₂,ht]
  congr 2
  omega

/-- A string is a view of exactly its octets. -/
theorem decodeBytes_at {buf w s suf : Bytes} {pos : ℕ} (hw : StringWord w s) (h : buf.drop pos = w ++ suf) :
    ∃ v, decodeBytes buf pos = .ok (v,pos + w.length) ∧ v.read buf = s := by
  obtain ⟨ds,hne,hds,hv,hs,rfl⟩ := hw
  have h₁ : buf.drop pos = ds ++ ':'.toUInt8 :: (s ++ suf) := by simpa using h
  have h₂ : buf.drop (pos + ds.length + 1) = s ++ suf := drop_succ_of_drop (drop_add_of_drop h₁)
  have hlen := length_of_drop h₁ (by simp)
  simp only [List.length_append,List.length_cons] at hlen
  have hc : ':'.toUInt8 ∉ ds := fun hmem => by
    have hd := hds _ hmem
    revert hd
    decide
  have hi : (Int64.ofInt (s.length : ℤ)).toInt = s.length := Int64.toInt_ofInt_of_le (by omega) (by omega)
  refine ⟨.view (pos + ds.length + 1) s.length,?_,?_⟩
  · simp only [decodeBytes,indexFrom_eq h₁ hc,drop_take_of_drop h₁,atoi_digits hne hds hv hs,hi]
    rw [if_neg (by omega),if_neg (by push_cast; omega),if_neg (by omega),Int.toNat_natCast]
    simp only [List.length_append,List.length_cons]
    congr 2
    omega
  · simp only [Slice.read,h₂,List.take_left]

section Loops
variable {buf : Bytes} {i : ℕ}

/-- A loop goes on where text begins that does not close its container. -/
theorem not_atEnd_of_head {t : Bytes} (ht : ∃ b t', t = b :: t' ∧ b ≠ 'e'.toUInt8) (h : buf.drop i = t) : ¬ atEnd buf i = true := by
  obtain ⟨b,t',rfl,hb⟩ := ht
  rw [atEnd,getElem?_of_drop h]
  simpa using hb

theorem listLoop_step {item : Value Slice} {off : ℕ} (ret : List (Value Slice))
    (h : ¬ atEnd buf i = true) (ha : decodeAny buf i = .ok (item,off)) :
    listLoop buf i ret = listLoop buf off (ret ++ [item]) := by
  rw [listLoop_eq,if_neg h,ha]
  rfl

theorem listLoop_close {rest : Bytes} (ret : List (Value Slice)) (h : buf.drop i = 'e'.toUInt8 :: rest) :
    listLoop buf i ret = .ok (ret,i+1) := by
  rw [listLoop_eq,atEnd,getElem?_of_drop h]
  rfl

theorem listLoop_end (ret : List (Value Slice)) (h : buf.length ≤ i) : listLoop buf i ret = .ok (ret,i+1) := by
  rw [listLoop_eq,if_pos ((atEnd_iff buf i).mpr (Or.inl h))]

theorem dictLoop_key {s : Slice} {off : ℕ} (ret : Dict Slice)
    (h : ¬ atEnd buf i = true) (ha : decodeAny buf i = .ok (.bytes s,off)) :
    dictLoop buf i none ret = dictLoop buf off (some (s.read buf)) ret := by
  rw [dictLoop_eq,if_neg h,ha]
  rfl

theorem dictLoop_value {item : Value Slice} {off : ℕ} (k : Bytes) (ret : Dict Slice)
    (h : ¬ atEnd buf i = true) (ha : decodeAny buf i = .ok (item,off)) :
    dictLoop buf i (some k) ret = dictLoop buf off none (KeyMap.insert k item ret) := by
  rw [dictLoop_eq,if_neg h,ha]
  rfl

theorem dictLoop_close {rest : Bytes} (key : Option Bytes) (ret : Dict Slice)
    (h : buf.drop i = 'e'.toUInt8 :: rest) : dictLoop buf i key ret = .ok (ret,i+1) := by
  rw [dictLoop_eq,atEnd,getElem?_of_drop h]
  rfl

theorem dictLoop_end (key : Option Bytes) (ret : Dict Slice) (h : buf.length ≤ i) :
    dictLoop buf i key ret = .ok (ret,i+1) := by
  rw [dictLoop_eq,if_pos ((atEnd_iff buf i).mpr (Or.inl h))]

end Loops

section Dispatch
variable {buf rest : Bytes} {pos : ℕ}

theorem decodeAny_int (h : buf.drop pos = 'i'.toUInt8 :: rest) :
    decodeAny buf pos = decodeInt buf pos >>= fun (n,offset) => .ok (.int n,offset) := by
  rw [decodeAny_eq,getElem?_of_drop h]
  rfl

theorem decodeAny_bytes {b : UInt8} (h : buf.drop pos = b :: rest) (hb : isDigit b = true) :
    decodeAny buf pos = decodeBytes buf pos >>= fun (s,offset) => .ok (.bytes s,offset) := by
  have hi := isDigit_ne hb (c := 'i'.toUInt8) (by decide)
  simp only [decodeAny_eq,getElem?_of_drop h,hi,hb,if_true,if_false]
  rfl

theorem decodeAny_list (h : buf.drop pos = 'l'.toUInt8 :: rest) :
    decodeAny buf pos = listLoop buf (pos+1) [] >>= fun (xs,offset) => .ok (.list xs,offset) := by
  rw [decodeAny_eq,getElem?_of_drop h]
  rfl

theorem decodeAny_dict (h : buf.drop pos = 'd'.toUInt8 :: rest) :
    decodeAny buf pos = dictLoop buf (pos+1) none [] >>= fun (m,offset) => .ok (.map m,offset) := by
  rw [decodeAny_eq,getElem?_of_drop h]
  rfl

end Dispatch

/-- The key of an entry is read and the loop goes on to its value. -/
theorem StringWord.key_read {buf k key t : Bytes} {i : ℕ} (hk : StringWord k key) (h : buf.drop i = k ++ t)
    (ret : Dict Slice) : dictLoop buf i none ret = dictLoop buf (i + k.length) (some key) ret := by
  have hne := not_atEnd_of_head (Reads.bytes hk).head h
  obtain ⟨v,hv,hr⟩ := decodeBytes_at hk h
  obtain ⟨b,k',rfl,hb⟩ := hk.head
  have ha : decodeAny buf i = .ok (.bytes v,i + (b :: k').length) := by
    rw [decodeAny_bytes h hb,hv]
    rfl
  rw [dictLoop_key ret hne ha,hr]

mutual
theorem Reads.accepted {buf : Bytes} : ∀ {t : Bytes} {d : Datum} {r : Option Bytes}, Reads t d r →
    ∀ pos, buf.drop pos = t →
      ∃ v off, decodeAny buf pos = .ok (v,off) ∧ v.denote (Slice.read buf) = some d ∧ Behind buf off r
  | _, _, _, @Reads.int t suf n ht => fun pos h => by
    have h₁ : buf.drop pos = ('i'.toUInt8 :: t ++ ['e'.toUInt8]) ++ suf := by simpa using h
    refine ⟨.int n,_,?_,rfl,behind_of_drop h₁ (by simp)⟩
    rw [decodeAny_int h,decodeInt_closed ht h]
    rfl
  | _, _, _, @Reads.openInt t n ht => fun pos h => by
    refine ⟨.int n,_,?_,rfl,Nat.lt_succ_self _⟩
    rw [decodeAny_int h,decodeInt_open ht h]
    rfl
  | _, _, _, @Reads.bytes w s suf hw => fun pos h => by
    obtain ⟨v,hv,hr⟩ := decodeBytes_at hw h
    obtain ⟨b,t,rfl,hb⟩ := hw.head
    refine ⟨.bytes v,_,?_,by simp [Value.denote,hr],behind_of_drop h (by simp)⟩
    rw [decodeAny_bytes h hb,hv]
    rfl
  | _, _, _, .list hi => fun pos h => by
    obtain ⟨vs,off,hl,hd,hb⟩ := hi.accepted (pos+1) [] [] (drop_succ_of_drop h) rfl
    refine ⟨.list vs,off,?_,by simpa [Value.denote] using hd,hb⟩
    rw [decodeAny_list h,hl]
    rfl
  | _, _, _, @Reads.dict t ps r he => fun pos h => by
    obtain ⟨m,off,hl,hd,hb⟩ := he.accepted (pos+1) [] [] (drop_succ_of_drop h) rfl
    refine ⟨.map m,off,?_,?_,hb⟩
    · rw [decodeAny_dict h,hl]
      rfl
    · simp only [Value.denote,hd,Option.map_some]
      rw [(KeyMap.sorted_foldl_insert ps List.Pairwise.nil).ofPairs]
      rfl

theorem ReadsItems.accepted {buf : Bytes} : ∀ {t : Bytes} {xs : List Datum} {r : Option Bytes},
    ReadsItems t xs r → ∀ i ret ds, buf.drop i = t → denoteItems (Slice.read buf) ret = some ds →
      ∃ vs off, listLoop buf i ret = .ok (vs,off) ∧ denoteItems (Slice.read buf) vs = some (ds ++ xs) ∧
        Behind buf off r
  | _, _, _, @ReadsItems.close suf => fun i ret ds h hret =>
    ⟨ret,i+1,listLoop_close ret h,by simpa using hret,behind_of_drop (w := ['e'.toUInt8]) h (by simp)⟩
  | _, _, _, .finish => fun i ret ds h hret => by
    have hi := List.drop_eq_nil_iff.mp h
    exact ⟨ret,i+1,listLoop_end ret hi,by simpa using hret,by dsimp only [Behind]; omega⟩
  | _, _, _, @ReadsItems.next t t' x xs r hx hi => fun i ret ds h hret => by
    obtain ⟨v,o,hv,hd,hb⟩ := hx.accepted i h
    obtain ⟨vs,off,hl,hds,hb'⟩ := hi.accepted o (ret ++ [v]) (ds ++ [x]) hb.1
      (denoteItems_append_singleton _ hret hd)
    refine ⟨vs,off,?_,by simpa using hds,hb'⟩
    rw [listLoop_step ret (not_atEnd_of_head hx.head h) hv,hl]
  | _, _, _, @ReadsItems.cut t x hx => fun i ret ds h hret => by
    obtain ⟨v,o,hv,hd,hb⟩ := hx.accepted i h
    refine ⟨ret ++ [v],o+1,?_,denoteItems_append_singleton _ hret hd,Nat.lt_succ_of_lt hb⟩
    rw [listLoop_step ret (not_atEnd_of_head hx.head h) hv,listLoop_end _ (Nat.le_of_lt hb)]

theorem ReadsEntries.accepted {buf : Bytes} :
    ∀ {t : Bytes} {ps : List (Bytes × Datum)} {r : Option Bytes}, ReadsEntries t ps r →
    ∀ i ret qs, buf.drop i = t → denoteEntries (Slice.read buf) ret = some qs →
      ∃ m off, dictLoop buf i none ret = .ok (m,off) ∧
        denoteEntries (Slice.read buf) m = some (ps.foldl (fun m p => KeyMap.insert p.1 p.2 m) qs) ∧
        Behind buf off r
  | _, _, _, @ReadsEntries.close suf => fun i ret qs h hret =>
    ⟨ret,i+1,dictLoop_close none ret h,hret,behind_of_drop (w := ['e'.toUInt8]) h (by simp)⟩
  | _, _, _, .finish => fun i ret qs h hret => by
    have hi := List.drop_eq_nil_iff.mp h
    exact ⟨ret,i+1,dictLoop_end none ret hi,hret,by dsimp only [Behind]; omega⟩
  | _, _, _, @ReadsEntries.closeKey k key suf hk => fun i ret qs h hret => by
    have h₁ := drop_add_of_drop h
    refine ⟨ret,_,?_,hret,behind_of_drop (w := ['e'.toUInt8]) h₁ (by simp)⟩
    rw [hk.key_read h,dictLoop_close _ _ h₁]
    rfl
  | _, _, _, @ReadsEntries.finishKey k key hk => fun i ret qs h hret => by
    have h₀ : buf.drop i = k ++ [] := by simpa using h
    have hi := List.drop_eq_nil_iff.mp (drop_add_of_drop h₀)
    refine ⟨ret,_,?_,hret,Nat.lt_succ_of_le hi⟩
    rw [hk.key_read h₀,dictLoop_end _ _ hi]
  | _, _, _, @ReadsEntries.next k key t t' x ps r hk hx he => fun i ret qs h hret => by
    have h₁ := drop_add_of_drop h
    obtain ⟨v,o,hv,hd,hb⟩ := hx.accepted _ h₁
    obtain ⟨m,off,hl,hm,hb'⟩ := he.accepted o _ _ hb.1 (denoteEntries_insert _ key hret hd)
    refine ⟨m,off,?_,hm,hb'⟩
    rw [hk.key_read h,dictLoop_value key ret (not_atEnd_of_head hx.head h₁) hv,hl]
  | _, _, _, @ReadsEntries.cut k key t x hk hx => fun i ret qs h hret => by
    have h₁ := drop_add_of_drop h
    obtain ⟨v,o,hv,hd,hb⟩ := hx.accepted _ h₁
    refine ⟨_,o+1,?_,denoteEntries_insert _ key hret hd,Nat.lt_succ_of_lt hb⟩
    rw [hk.key_read h,dictLoop_value key ret (not_atEnd_of_head hx.head h₁) hv,dictLoop_end _ _ (Nat.le_of_lt hb)]
end

/-- A word is decoded to its meaning and the offset right behind it. -/
theorem Word.accepted {buf w suf : Bytes} {d : Datum} {pos : ℕ} (hw : Word w d)
    (h : buf.drop pos = w ++ suf) :
    ∃ v, decodeAny buf pos = .ok (v,pos + w.length) ∧ v.denote (Slice.read buf) = some d := by
  have hne : w ≠ [] := by
    rintro rfl
    exact Reads.ne_nil (hw.reads [])
  obtain ⟨v,off,hv,hd,hb⟩ := (hw.reads suf).accepted pos h
  exact ⟨v,hb.eq h hne ▸ hv,hd⟩

/-- A dictionary is decoded as such when it is known to be one. -/
theorem Word.bDecodeDict {w : Bytes} {e : List (Bytes × Datum)} (hw : Word w (.dict e)) (suf : Bytes) :
    ∃ m, bDecodeDict (w ++ suf) = .ok (m,w.length) ∧
      (Value.map m).denote (Slice.read (w ++ suf)) = some (.dict e) := by
  obtain ⟨v,hv,hd⟩ := @Word.accepted (w ++ suf) w suf _ 0 hw rfl
  cases hw with
  | dict he =>
    rename_i w ps
    have hdrop : (('d'.toUInt8 :: w ++ ['e'.toUInt8]) ++ suf).drop 0 = 'd'.toUInt8 :: (w ++ ['e'.toUInt8] ++ suf) := rfl
    rw [decodeAny_dict hdrop] at hv
    obtain ⟨⟨m,off⟩,hm,hr⟩ := Outcome.bind_eq_ok.mp hv
    cases hr
    refine ⟨m,?_,hd⟩
    rw [Bencode.bDecodeDict,decodeDict,hm,Nat.zero_add]

end DhtOcean.Bencode
