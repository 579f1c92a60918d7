import DhtOcean.Bencode.Sound

/-! # When decoding panics

Decoding always ends. It panics exactly when the lenient reading of the text
meets a value other than a string where a key is due, and then by a failed type
assertion: no slice expression is ever out of range.
-/
namespace DhtOcean.Bencode
open Foundation

theorem ItemClash.ne_nil : ¬ ItemClash [] := by
  intro h
  cases h with
  | inItem h => exact KeyClash.ne_nil h
  | next hr _ => exact Reads.ne_nil hr

theorem EntryClash.ne_nil {t : Bytes} (h : EntryClash t) : t ≠ [] := by
  rintro rfl
  generalize ht : ([] : Bytes) = t at h
  cases h with
  | key hr _ => exact Reads.ne_nil (ht ▸ hr)
  | inKey h => exact KeyClash.ne_nil (ht ▸ h)
  | inValue hk _ => exact hk.ne_nil (List.append_eq_nil_iff.mp ht.symm).1
  | next hk _ _ => exact hk.ne_nil (List.append_eq_nil_iff.mp ht.symm).1

/-- A clash that the loop of a dictionary meets at `t`, the key being read already or not. -/
def ClashFrom (key : Option Bytes) (t : Bytes) : Prop :=
  match key with
  | none => EntryClash t
  | some key => ∀ k, StringWord k key → EntryClash (k ++ t)

theorem Produced.denote_bytes {buf : Bytes} {size : ℕ} {v : Value Slice} {s : Bytes} (hp : Produced size v)
    (hd : v.denote (Slice.read buf) = some (.bytes s)) : ∃ b, v = .bytes b := by
  cases hp with
  | bytes _ => exact ⟨_,rfl⟩
  | int _ => cases hd
  | list _ => simp [Value.denote] at hd
  | map _ _ => simp [Value.denote] at hd

theorem decodeInt_not_panic (buf : Bytes) (pos : ℕ) (p : Panic) : decodeInt buf pos ≠ .panic p := by
  unfold decodeInt
  dsimp only
  split <;> simp

theorem decodeBytes_not_panic {buf : Bytes} {pos : ℕ} {b : UInt8} (hb : buf[pos]? = some b)
    (hd : isDigit b = true) (p : Panic) : decodeBytes buf pos ≠ .panic p := by
  rcases decodeBytes_digit hb hd with ⟨e,he⟩ | ⟨s,w,suf,hs,-,-⟩
  · simp [he]
  · simp [hs]

/-- The source of every panic, by induction on the nested calls. -/
theorem panic_clash (buf : Bytes) (fuel : ℕ) :
    (∀ {pos p}, decodeAnyFuel buf fuel pos = .panic p → p = .typeAssertion ∧ KeyClash (buf.drop pos)) ∧
    (∀ {i ret p}, listLoopFuel buf fuel i ret = .panic p → p = .typeAssertion ∧ ItemClash (buf.drop i)) ∧
    (∀ {i key ret p}, dictLoopFuel buf fuel i key ret = .panic p →
      p = .typeAssertion ∧ ClashFrom key (buf.drop i)) := by
  induction fuel with
  | zero => simp [decodeAnyFuel,listLoopFuel,dictLoopFuel]
  | succ fuel ih =>
    obtain ⟨iha,ihl,ihd⟩ := ih
    refine ⟨?_,?_,?_⟩
    · intro pos p h
      simp only [decodeAnyFuel] at h
      cases hb : buf[pos]? with
      | none => simp [hb] at h
      | some b =>
        simp only [hb] at h
        split at h
        · simp [Outcome.bind_eq_panic,decodeInt_not_panic] at h
        · split at h
          · rename_i hd
            simp [Outcome.bind_eq_panic,decodeBytes_not_panic hb hd] at h
          · split at h
            · rename_i hl
              simp only [Outcome.bind_eq_panic,Outcome.pure_eq,reduceCtorEq,and_false,exists_const,or_false] at h
              obtain ⟨hp,hc⟩ := ihl h
              exact ⟨hp,drop_of_getElem? hb ▸ hl ▸ .list hc⟩
            · split at h
              · rename_i hd
                simp only [Outcome.bind_eq_panic,Outcome.pure_eq,reduceCtorEq,and_false,exists_const,or_false] at h
                obtain ⟨hp,hc⟩ := ihd h
                exact ⟨hp,drop_of_getElem? hb ▸ hd ▸ .dict hc⟩
              · cases h
    · intro i ret p h
      simp only [listLoopFuel] at h
      split at h
      · cases h
      · rcases Outcome.bind_eq_panic.mp h with ha | ⟨⟨item,o⟩,ha,hl⟩
        · obtain ⟨hp,hc⟩ := iha ha
          exact ⟨hp,.inItem hc⟩
        · obtain ⟨d,r,-,hr,ho⟩ := ((sound_cases buf).holds fuel).1 ha
          obtain ⟨hp,hc⟩ := ihl hl
          cases r with
          | some t => exact ⟨hp,.next hr (ho.1 ▸ hc)⟩
          | none =>
            rw [List.drop_eq_nil_iff.mpr (Nat.le_of_lt ho)] at hc
            exact absurd hc ItemClash.ne_nil
    · intro i key ret p h
      simp only [dictLoopFuel] at h
      split at h
      · cases h
      · rcases Outcome.bind_eq_panic.mp h with ha | ⟨⟨item,o⟩,ha,hl⟩
        · obtain ⟨hp,hc⟩ := iha ha
          cases key with
          | none => exact ⟨hp,.inKey hc⟩
          | some key => exact ⟨hp,fun k hk => .inValue hk hc⟩
        · obtain ⟨d,r,hd,hr,ho⟩ := ((sound_cases buf).holds fuel).1 ha
          have hprod := ((produced_cases buf).holds fuel).1 ha
          cases key with
          | none =>
            by_cases hbytes : ∃ b, item = .bytes b
            · obtain ⟨b,rfl⟩ := hbytes
              obtain ⟨hp,hc⟩ := ihd hl
              cases hd
              refine ⟨hp,?_⟩
              generalize buf.drop i = t at hr
              cases hr with
              | bytes hw => exact ho.1 ▸ hc _ hw
            · have hp : p = .typeAssertion := by
                cases item with
                | bytes b => exact absurd ⟨b,rfl⟩ hbytes
                | _ => exact (Outcome.panic.inj hl).symm
              refine ⟨hp,.key hr ?_⟩
              rintro s rfl
              exact hbytes (hprod.denote_bytes hd)
          | some key =>
            obtain ⟨hp,hc⟩ := ihd hl
            refine ⟨hp,?_⟩
            intro k hk
            cases r with
            | some t => exact .next hk hr (ho.1 ▸ hc)
            | none => exact absurd (List.drop_eq_nil_iff.mpr (Nat.le_of_lt ho)) (EntryClash.ne_nil hc)

mutual
theorem KeyClash.panics {buf : Bytes} : ∀ {t : Bytes}, KeyClash t → ∀ pos, buf.drop pos = t →
    decodeAny buf pos = .panic .typeAssertion
  | _, .list hc => fun pos h => by
    rw [decodeAny_list h,hc.panics (pos+1) [] (drop_succ_of_drop h)]
    rfl
  | _, .dict hc => fun pos h => by
    rw [decodeAny_dict h,hc.panics (pos+1) [] (drop_succ_of_drop h)]
    rfl

theorem ItemClash.panics {buf : Bytes} : ∀ {t : Bytes}, ItemClash t → ∀ i ret, buf.drop i = t →
    listLoop buf i ret = .panic .typeAssertion
  | _, .inItem hc => fun i ret h => by
    have hp := hc.panics i h
    rw [listLoop_eq,if_neg (not_atEnd_of_head hc.head h),hp]
    rfl
  | _, .next hr hc => fun i ret h => by
    obtain ⟨v,o,hv,-,hb⟩ := hr.accepted i h
    rw [listLoop_step ret (not_atEnd_of_head hr.head h) hv]
    exact hc.panics o _ hb.1

theorem EntryClash.panics {buf : Bytes} : ∀ {t : Bytes}, EntryClash t → ∀ i ret, buf.drop i = t →
    dictLoop buf i none ret = .panic .typeAssertion
  | _, .key hr hx => fun i ret h => by
    obtain ⟨v,o,hv,hd,-⟩ := hr.accepted i h
    rw [dictLoop_eq,if_neg (not_atEnd_of_head hr.head h),hv]
    cases v with
    | bytes b =>
      cases hd
      exact absurd rfl (hx _)
    | _ => rfl
  | _, .inKey hc => fun i ret h => by
    have hp := hc.panics i h
    rw [dictLoop_eq,if_neg (not_atEnd_of_head hc.head h),hp]
    rfl
  | _, .inValue hk hc => fun i ret h => by
    have hp := hc.panics _ (drop_add_of_drop h)
    rw [hk.key_read h,dictLoop_eq,if_neg (not_atEnd_of_head hc.head (drop_add_of_drop h)),hp]
    rfl
  | _, .next hk hr hc => fun i ret h => by
    obtain ⟨v,o,hv,-,hb⟩ := hr.accepted _ (drop_add_of_drop h)
    rw [hk.key_read h,dictLoop_value _ ret (not_atEnd_of_head hr.head (drop_add_of_drop h)) hv]
    exact hc.panics o _ hb.1
end

theorem decodeAny_ne_hang (buf : Bytes) (pos : ℕ) : decodeAny buf pos ≠ .hang := by
  by_cases hpos : pos ≤ buf.length
  · exact ((fuel_step buf _).1 pos (by unfold callDepth; omega)).2
  · rw [decodeAny_eq,List.getElem?_eq_none (by omega)]
    simp

/-- At any position the decoder panics exactly on a clash. -/
theorem decodeAny_eq_panic_iff {buf : Bytes} {pos : ℕ} {p : Panic} :
    decodeAny buf pos = .panic p ↔ p = .typeAssertion ∧ KeyClash (buf.drop pos) := by
  constructor
  · intro h
    exact (panic_clash buf _).1 h
  · rintro ⟨rfl,hc⟩
    exact hc.panics pos rfl

theorem bDecode_eq_panic_iff {buf : Bytes} {p : Panic} :
    bDecode buf = .panic p ↔ p = .typeAssertion ∧ KeyClash buf := by
  have h := @decodeAny_eq_panic_iff buf 0 p
  rw [List.drop_zero] at h
  simp [bDecode,Outcome.bind_eq_panic,h]

theorem bDecode_ne_hang (buf : Bytes) : bDecode buf ≠ .hang := by
  simp [bDecode,Outcome.bind_eq_hang,decodeAny_ne_hang]

theorem bDecode_returns_iff (buf : Bytes) : (bDecode buf).Returns ↔ ¬ KeyClash buf := by
  simp [Outcome.returns_iff,Outcome.Panics,bDecode_eq_panic_iff,bDecode_ne_hang]

end DhtOcean.Bencode
