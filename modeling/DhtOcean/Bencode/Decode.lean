import DhtOcean.Bencode.Value
import DhtOcean.Foundation.Decimal
import DhtOcean.Foundation.Outcome

/-! # The recursive decoder

The decoder reads a buffer by position. Its loops and its recursion are driven
by fuel that stands for the stack of calls; `decodeAny_eq`, `listLoop_eq` and
`dictLoop_eq` show that the fuel never runs out and are the equations of the
source. Every later result uses these equations alone.
-/
namespace DhtOcean.Bencode
open Foundation

inductive DecodeError
  | illegalPayload
  | unsupportedType (b : UInt8)
  | atoi (e : NumError)
  | illegalStrLen
  | strLenOverflow
  deriving DecidableEq, Repr

abbrev Decoding := Outcome DecodeError

/-- The slice expression `buf[lo:hi]` needs `lo ≤ hi ≤ len(buf)`; a negative length breaks it. -/
def decodeBytes (buf : Bytes) (pos : ℕ) : Decoding (Slice × ℕ) :=
  let i := indexFrom ':'.toUInt8 buf pos
  match atoi ((buf.take i).drop pos) with
  | .error e => .error (.atoi e)
  | .ok l =>
    if (buf.length : ℤ) ≤ l.toInt then .error .illegalStrLen
    else if (buf.length : ℤ) < i + l.toInt + 1 then .error .strLenOverflow
    else if l.toInt < 0 then .panic .sliceBounds
    else .ok (.view (i+1) l.toInt.toNat,i + l.toInt.toNat + 1)

def decodeInt (buf : Bytes) (pos : ℕ) : Decoding (Int64 × ℕ) :=
  let i := indexFrom 'e'.toUInt8 buf (pos+1)
  match atoi ((buf.take i).drop (pos+1)) with
  | .error e => .error (.atoi e)
  | .ok n => .ok (n,i+1)

/-- The loops stop where the buffer is exhausted or their container is closed. -/
def atEnd (buf : Bytes) (i : ℕ) : Bool := buf[i]?.all (· == 'e'.toUInt8)

mutual
def decodeAnyFuel (buf : Bytes) : ℕ → ℕ → Decoding (Value Slice × ℕ)
  | 0, _ => .hang
  | fuel+1, pos =>
    match buf[pos]? with
    | none => .error .illegalPayload
    | some b =>
      if b = 'i'.toUInt8 then do
        let (n,offset) ← decodeInt buf pos
        return (.int n,offset)
      else if isDigit b then do
        let (s,offset) ← decodeBytes buf pos
        return (.bytes s,offset)
      else if b = 'l'.toUInt8 then do
        let (xs,offset) ← listLoopFuel buf fuel (pos+1) []
        return (.list xs,offset)
      else if b = 'd'.toUInt8 then do
        let (m,offset) ← dictLoopFuel buf fuel (pos+1) none []
        return (.map m,offset)
      else .error (.unsupportedType b)

/-- The loop of `decodeList` at index `i` with the items read so far. -/
def listLoopFuel (buf : Bytes) : ℕ → ℕ → List (Value Slice) → Decoding (List (Value Slice) × ℕ)
  | 0, _, _ => .hang
  | fuel+1, i, ret =>
    if atEnd buf i then .ok (ret,i+1)
    else do
      let (item,offset) ← decodeAnyFuel buf fuel i
      listLoopFuel buf fuel offset (ret ++ [item])

/-- The loop of `decodeDict`; the key is `none` while `isKey` holds. -/
def dictLoopFuel (buf : Bytes) : ℕ → ℕ → Option Bytes → Dict Slice → Decoding (Dict Slice × ℕ)
  | 0, _, _, _ => .hang
  | fuel+1, i, key, ret =>
    if atEnd buf i then .ok (ret,i+1)
    else do
      let (item,offset) ← decodeAnyFuel buf fuel i
      match key with
      | none =>
        match item with
        | .bytes b => dictLoopFuel buf fuel offset (some (b.read buf)) ret
        | _ => .panic .typeAssertion
      | some k => dictLoopFuel buf fuel offset none (KeyMap.insert k item ret)
end

/-- More nested calls than a buffer of this length can need. -/
def callDepth (buf : Bytes) : ℕ := 2*buf.length + 2

def decodeAny (buf : Bytes) (pos : ℕ) : Decoding (Value Slice × ℕ) := decodeAnyFuel buf (callDepth buf) pos

def listLoop (buf : Bytes) (i : ℕ) (ret : List (Value Slice)) : Decoding (List (Value Slice) × ℕ) :=
  listLoopFuel buf (callDepth buf) i ret

def dictLoop (buf : Bytes) (i : ℕ) (key : Option Bytes) (ret : Dict Slice) : Decoding (Dict Slice × ℕ) :=
  dictLoopFuel buf (callDepth buf) i key ret

def decodeList (buf : Bytes) (pos : ℕ) : Decoding (List (Value Slice) × ℕ) := listLoop buf (pos+1) []

def decodeDict (buf : Bytes) (pos : ℕ) : Decoding (Dict Slice × ℕ) := dictLoop buf (pos+1) none []

def bDecode (buf : Bytes) : Decoding (Value Slice) := do
  let (ret,_) ← decodeAny buf 0
  return ret

def bDecodeDict (buf : Bytes) : Decoding (Dict Slice × ℕ) := decodeDict buf 0

theorem decodeInt_progress {buf : Bytes} {pos off : ℕ} {n : Int64} (h : decodeInt buf pos = .ok (n,off)) :
    pos < off := by
  have hi := le_indexFrom 'e'.toUInt8 buf (pos+1)
  unfold decodeInt at h
  dsimp only at h
  split at h
  · cases h
  · cases h
    omega

/-- A byte string is a view of the buffer, and the offset is where it ends. -/
theorem decodeBytes_eq_ok {buf : Bytes} {pos off : ℕ} {s : Slice} (h : decodeBytes buf pos = .ok (s,off)) :
    ∃ start len, s = .view start len ∧ pos < start ∧ off = start + len ∧ off ≤ buf.length := by
  have hi := le_indexFrom ':'.toUInt8 buf pos
  unfold decodeBytes at h
  dsimp only at h
  split at h
  · cases h
  · split at h
    · cases h
    · split at h
      · cases h
      · split at h
        · cases h
        · cases h
          exact ⟨_,_,rfl,by omega,by omega,by omega⟩

theorem decodeBytes_progress {buf : Bytes} {pos off : ℕ} {s : Slice} (h : decodeBytes buf pos = .ok (s,off)) :
    pos < off := by
  obtain ⟨start,len,-,hstart,hoff,-⟩ := decodeBytes_eq_ok h
  omega

theorem atEnd_iff (buf : Bytes) (i : ℕ) :
    atEnd buf i = true ↔ buf.length ≤ i ∨ buf[i]? = some 'e'.toUInt8 := by
  unfold atEnd
  cases h : buf[i]? with
  | none => simpa using List.getElem?_eq_none_iff.mp h
  | some b =>
    have hi := (List.getElem?_eq_some_iff.mp h).1
    simp [hi]

theorem lt_of_not_atEnd {buf : Bytes} {i : ℕ} (h : ¬ atEnd buf i = true) : i < buf.length := by
  rw [atEnd_iff] at h
  omega

/-- A property of successful calls, case by case along the code: `A` of
`decodeAny`, `L` and `D` of the loops with what they had read before. -/
structure OkCases (buf : Bytes) (A : ℕ → Value Slice → ℕ → Prop)
    (L : ℕ → List (Value Slice) → List (Value Slice) → ℕ → Prop)
    (D : ℕ → Option Bytes → Dict Slice → Dict Slice → ℕ → Prop) : Prop where
  int {pos n off} : buf[pos]? = some 'i'.toUInt8 → decodeInt buf pos = .ok (n,off) → A pos (.int n) off
  bytes {pos b s off} : buf[pos]? = some b → isDigit b = true → decodeBytes buf pos = .ok (s,off) →
    A pos (.bytes s) off
  list {pos xs off} : buf[pos]? = some 'l'.toUInt8 → L (pos+1) [] xs off → A pos (.list xs) off
  dict {pos m off} : buf[pos]? = some 'd'.toUInt8 → D (pos+1) none [] m off → A pos (.map m) off
  listEnd {i ret} : atEnd buf i = true → L i ret ret (i+1)
  listNext {i o ret item xs off} : ¬ atEnd buf i = true → A i item o →
    L o (ret ++ [item]) xs off → L i ret xs off
  dictEnd {i key ret} : atEnd buf i = true → D i key ret ret (i+1)
  dictKey {i o ret s m off} : ¬ atEnd buf i = true → A i (.bytes s) o →
    D o (some (s.read buf)) ret m off → D i none ret m off
  dictValue {i o k ret item m off} : ¬ atEnd buf i = true → A i item o →
    D o none (KeyMap.insert k item ret) m off → D i (some k) ret m off

/-- The induction over nested calls, once for every property of successful ones. -/
theorem OkCases.holds {buf : Bytes} {A : ℕ → Value Slice → ℕ → Prop}
    {L : ℕ → List (Value Slice) → List (Value Slice) → ℕ → Prop}
    {D : ℕ → Option Bytes → Dict Slice → Dict Slice → ℕ → Prop}
    (h : OkCases buf A L D) (fuel : ℕ) :
    (∀ {pos v off}, decodeAnyFuel buf fuel pos = .ok (v,off) → A pos v off) ∧
    (∀ {i ret xs off}, listLoopFuel buf fuel i ret = .ok (xs,off) → L i ret xs off) ∧
    (∀ {i key ret m off}, dictLoopFuel buf fuel i key ret = .ok (m,off) → D i key ret m off) := by
  induction fuel with
  | zero => simp [decodeAnyFuel,listLoopFuel,dictLoopFuel]
  | succ fuel ih =>
    obtain ⟨iha,ihl,ihd⟩ := ih
    refine ⟨?_,?_,?_⟩
    · intro pos v off he
      simp only [decodeAnyFuel] at he
      cases hb : buf[pos]? with
      | none => simp only [hb] at he; cases he
      | some b =>
        simp only [hb] at he
        split at he
        · rename_i hi
          obtain ⟨⟨n,o⟩,hn,hr⟩ := Outcome.bind_eq_ok.mp he
          cases hr
          exact h.int (hi ▸ hb) hn
        · split at he
          · rename_i hd
            obtain ⟨⟨s,o⟩,hs,hr⟩ := Outcome.bind_eq_ok.mp he
            cases hr
            exact h.bytes hb hd hs
          · split at he
            · rename_i hl
              obtain ⟨⟨xs,o⟩,hx,hr⟩ := Outcome.bind_eq_ok.mp he
              cases hr
              exact h.list (hl ▸ hb) (ihl hx)
            · split at he
              · rename_i hd
                obtain ⟨⟨m,o⟩,hm,hr⟩ := Outcome.bind_eq_ok.mp he
                cases hr
                exact h.dict (hd ▸ hb) (ihd hm)
              · cases he
    · intro i ret xs off he
      simp only [listLoopFuel] at he
      split at he
      · rename_i hend
        cases he
        exact h.listEnd hend
      · rename_i hend
        obtain ⟨⟨item,o⟩,hi,hl⟩ := Outcome.bind_eq_ok.mp he
        exact h.listNext hend (iha hi) (ihl hl)
    · intro i key ret m off he
      simp only [dictLoopFuel] at he
      split at he
      · rename_i hend
        cases he
        exact h.dictEnd hend
      · rename_i hend
        obtain ⟨⟨item,o⟩,hi,hl⟩ := Outcome.bind_eq_ok.mp he
        cases key with
        | none =>
          cases item with
          | bytes b => exact h.dictKey hend (iha hi) (ihd hl)
          | _ => cases hl
        | some k => exact h.dictValue hend (iha hi) (ihd hl)

/-- Every successful call moves past the position it started from. -/
theorem progress (buf : Bytes) :
    OkCases buf (fun pos _ off => pos < off) (fun i _ _ off => i < off) (fun i _ _ _ off => i < off) where
  int _ h := decodeInt_progress h
  bytes _ _ h := decodeBytes_progress h
  list _ h := by omega
  dict _ h := by omega
  listEnd _ := by omega
  listNext _ ha hl := by omega
  dictEnd _ := by omega
  dictKey _ ha hd := by omega
  dictValue _ ha hd := by omega

theorem decodeInt_ne_hang (buf : Bytes) (pos : ℕ) : decodeInt buf pos ≠ .hang := by
  unfold decodeInt
  dsimp only
  split <;> simp

theorem decodeBytes_ne_hang (buf : Bytes) (pos : ℕ) : decodeBytes buf pos ≠ .hang := by
  unfold decodeBytes
  dsimp only
  split
  · simp
  · split
    · simp
    · split
      · simp
      · split <;> simp

/-- With fuel for the rest of the buffer no call hangs and more fuel changes nothing. -/
theorem fuel_step (buf : Bytes) (fuel : ℕ) :
    (∀ pos, 2*(buf.length - pos) + 1 ≤ fuel →
      decodeAnyFuel buf (fuel+1) pos = decodeAnyFuel buf fuel pos ∧ decodeAnyFuel buf fuel pos ≠ .hang) ∧
    (∀ i ret, 2*(buf.length - i) + 2 ≤ fuel →
      listLoopFuel buf (fuel+1) i ret = listLoopFuel buf fuel i ret ∧ listLoopFuel buf fuel i ret ≠ .hang) ∧
    (∀ i key ret, 2*(buf.length - i) + 2 ≤ fuel →
      dictLoopFuel buf (fuel+1) i key ret = dictLoopFuel buf fuel i key ret ∧
        dictLoopFuel buf fuel i key ret ≠ .hang) := by
  induction fuel with
  | zero => exact ⟨fun _ h => by omega,fun _ _ h => by omega,fun _ _ _ h => by omega⟩
  | succ fuel ih =>
    obtain ⟨iha,ihl,ihd⟩ := ih
    refine ⟨?_,?_,?_⟩
    · intro pos hfuel
      cases hb : buf[pos]? with
      | none => simp [decodeAnyFuel,hb]
      | some b =>
        have hpos := (List.getElem?_eq_some_iff.mp hb).1
        obtain ⟨hl,hl'⟩ := ihl (pos+1) [] (by omega)
        obtain ⟨hd,hd'⟩ := ihd (pos+1) none [] (by omega)
        have hint := decodeInt_ne_hang buf pos
        have hbytes := decodeBytes_ne_hang buf pos
        simp only [decodeAnyFuel,hb,hl,hd,true_and]
        split
        · simp [Outcome.bind_eq_hang,hint]
        · split
          · simp [Outcome.bind_eq_hang,hbytes]
          · split
            · simp [Outcome.bind_eq_hang,hl']
            · split
              · simp [Outcome.bind_eq_hang,hd']
              · simp
    · intro i ret hfuel
      rw [listLoopFuel,listLoopFuel]
      split
      · simp
      · rename_i hend
        have hi := lt_of_not_atEnd hend
        obtain ⟨ha,ha'⟩ := iha i (by omega)
        rw [ha]
        cases hr : decodeAnyFuel buf fuel i with
        | ok r =>
          obtain ⟨item,off⟩ := r
          have hp := ((progress buf).holds fuel).1 hr
          exact ihl off (ret ++ [item]) (by omega)
        | error e => simp
        | panic p => simp
        | hang => exact absurd hr ha'
    · intro i key ret hfuel
      rw [dictLoopFuel,dictLoopFuel]
      split
      · simp
      · rename_i hend
        have hi := lt_of_not_atEnd hend
        obtain ⟨ha,ha'⟩ := iha i (by omega)
        rw [ha]
        cases hr : decodeAnyFuel buf fuel i with
        | ok r =>
          obtain ⟨item,off⟩ := r
          have hp := ((progress buf).holds fuel).1 hr
          cases key with
          | none =>
            cases item with
            | bytes b => exact ihd off (some (b.read buf)) ret (by omega)
            | _ => simp
          | some k => exact ihd off none (KeyMap.insert k item ret) (by omega)
        | error e => simp
        | panic p => simp
        | hang => exact absurd hr ha'

theorem dictLoop_ne_hang (buf : Bytes) (i : ℕ) (key : Option Bytes) (ret : Dict Slice) :
    dictLoop buf i key ret ≠ .hang :=
  ((fuel_step buf (callDepth buf)).2.2 i key ret (by unfold callDepth; omega)).2

theorem decodeAny_eq (buf : Bytes) (pos : ℕ) :
    decodeAny buf pos =
      match buf[pos]? with
      | none => .error .illegalPayload
      | some b =>
        if b = 'i'.toUInt8 then do
          let (n,offset) ← decodeInt buf pos
          return (.int n,offset)
        else if isDigit b then do
          let (s,offset) ← decodeBytes buf pos
          return (.bytes s,offset)
        else if b = 'l'.toUInt8 then do
          let (xs,offset) ← decodeList buf pos
          return (.list xs,offset)
        else if b = 'd'.toUInt8 then do
          let (m,offset) ← decodeDict buf pos
          return (.map m,offset)
        else .error (.unsupportedType b) := by
  cases hb : buf[pos]? with
  | none => simp [decodeAny,callDepth,decodeAnyFuel,hb]
  | some b =>
    have hpos := (List.getElem?_eq_some_iff.mp hb).1
    have hl := ((fuel_step buf (2*buf.length + 1)).2.1 (pos+1) [] (by omega)).1
    have hd := ((fuel_step buf (2*buf.length + 1)).2.2 (pos+1) none [] (by omega)).1
    simp only [decodeAny,callDepth,decodeAnyFuel,hb,← hl,← hd]
    rfl

theorem listLoop_eq (buf : Bytes) (i : ℕ) (ret : List (Value Slice)) :
    listLoop buf i ret =
      if atEnd buf i then .ok (ret,i+1)
      else decodeAny buf i >>= fun (item,offset) => listLoop buf offset (ret ++ [item]) := by
  unfold listLoop
  rw [callDepth,listLoopFuel]
  split
  · rfl
  · rename_i hend
    have hi := lt_of_not_atEnd hend
    have ha := ((fuel_step buf (2*buf.length + 1)).1 i (by omega)).1
    rw [← ha]
    change (decodeAny buf i >>= _) = _
    cases hr : decodeAny buf i with
    | ok r =>
      obtain ⟨item,off⟩ := r
      have hp := ((progress buf).holds _).1 hr
      exact ((fuel_step buf (2*buf.length + 1)).2.1 off (ret ++ [item]) (by omega)).1.symm
    | _ => rfl

theorem dictLoop_eq (buf : Bytes) (i : ℕ) (key : Option Bytes) (ret : Dict Slice) :
    dictLoop buf i key ret =
      if atEnd buf i then .ok (ret,i+1)
      else decodeAny buf i >>= fun (item,offset) =>
        match key with
        | none =>
          match item with
          | .bytes b => dictLoop buf offset (some (b.read buf)) ret
          | _ => .panic .typeAssertion
        | some k => dictLoop buf offset none (KeyMap.insert k item ret) := by
  unfold dictLoop
  rw [callDepth,dictLoopFuel]
  split
  · rfl
  · rename_i hend
    have hi := lt_of_not_atEnd hend
    have ha := ((fuel_step buf (2*buf.length + 1)).1 i (by omega)).1
    rw [← ha]
    change (decodeAny buf i >>= _) = _
    cases hr : decodeAny buf i with
    | ok r =>
      obtain ⟨item,off⟩ := r
      have hp := ((progress buf).holds _).1 hr
      have hd := fun key ret => ((fuel_step buf (2*buf.length + 1)).2.2 off key ret (by omega)).1.symm
      cases key with
      | none =>
        cases item with
        | bytes b => exact hd (some (b.read buf)) ret
        | _ => rfl
      | some k => exact hd none (KeyMap.insert k item ret)
    | _ => rfl

section EntryPoints

/-- A map comes from `decodeDict`, and only behind its octet. -/
theorem decodeAny_eq_map {buf : Bytes} {pos off : ℕ} {m : Dict Slice} :
    decodeAny buf pos = .ok (.map m,off) ↔ buf[pos]? = some 'd'.toUInt8 ∧ decodeDict buf pos = .ok (m,off) := by
  rw [decodeAny_eq]
  cases buf[pos]? with
  | none => simp
  | some b =>
    dsimp only
    by_cases hb : b = 'd'.toUInt8
    · subst hb
      rw [if_neg (by decide),if_neg (by decide),if_neg (by decide),if_pos rfl,Outcome.bind_eq_ok]
      constructor
      · rintro ⟨⟨m',off'⟩,hm,hr⟩
        cases hr
        exact ⟨rfl,hm⟩
      · rintro ⟨-,hm⟩
        exact ⟨(m,off),hm,rfl⟩
    · apply iff_of_false
      · intro h
        split_ifs at h
        all_goals
          obtain ⟨r,-,hr⟩ := Outcome.bind_eq_ok.mp h
          cases hr
      · rintro ⟨h,-⟩
        exact hb (Option.some.inj h)

theorem bDecode_eq_map {buf : Bytes} {m : Dict Slice} :
    bDecode buf = .ok (.map m) ↔ buf[0]? = some 'd'.toUInt8 ∧ ∃ off, bDecodeDict buf = .ok (m,off) := by
  rw [bDecode,Outcome.bind_eq_ok]
  constructor
  · rintro ⟨⟨v,off⟩,hv,hr⟩
    cases hr
    obtain ⟨hb,hm⟩ := decodeAny_eq_map.mp hv
    exact ⟨hb,off,hm⟩
  · rintro ⟨hb,off,hm⟩
    exact ⟨(.map m,off),decodeAny_eq_map.mpr ⟨hb,hm⟩,rfl⟩

end EntryPoints

end DhtOcean.Bencode
