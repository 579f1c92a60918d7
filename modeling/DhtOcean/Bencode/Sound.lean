import DhtOcean.Bencode.Accept

/-! # What is decoded was read

A decoded value holds integers, views inside the buffer, lists and maps only: no
string survives as a string. Its meaning is the one that the lenient reading
gives to the text at its position, and its offset stands behind that text.
-/
namespace DhtOcean.Bencode
open Foundation

/-- The values that decoding a buffer of `size` octets can produce. -/
inductive Produced (size : ℕ) : Value Slice → Prop
  | int (n : Int64) : Produced size (.int n)
  | bytes {off len : ℕ} : off + len ≤ size → Produced size (.bytes (.view off len))
  | list {xs : List (Value Slice)} : (∀ x ∈ xs, Produced size x) → Produced size (.list xs)
  | map {m : Dict Slice} : KeyMap.Sorted m → (∀ e ∈ m, Produced size e.2) → Produced size (.map m)

theorem Produced.of_lookup {size : ℕ} {m : Dict Slice} {key : Bytes} {v : Value Slice}
    (hm : Produced size (.map m)) (h : m.lookup key = some v) : Produced size v := by
  cases hm with
  | map _ hall => exact hall _ (KeyMap.mem_of_lookup h)

theorem Produced.view {size : ℕ} {s : Slice} (h : Produced size (.bytes s)) :
    ∃ off len, s = .view off len ∧ off + len ≤ size := by
  cases h with
  | bytes hle => exact ⟨_,_,rfl,hle⟩

theorem produced_cases (buf : Bytes) :
    OkCases buf (fun _ v _ => Produced buf.length v)
      (fun _ ret xs _ => (∀ x ∈ ret, Produced buf.length x) → ∀ x ∈ xs, Produced buf.length x)
      (fun _ _ ret m _ => (KeyMap.Sorted ret ∧ ∀ e ∈ ret, Produced buf.length e.2) →
        KeyMap.Sorted m ∧ ∀ e ∈ m, Produced buf.length e.2) where
  int _ _ := .int _
  bytes _ _ h := by
    obtain ⟨start,len,rfl,-,rfl,hle⟩ := decodeBytes_eq_ok h
    exact .bytes hle
  list _ h := .list (h (by simp))
  dict _ h := by
    obtain ⟨hs,hm⟩ := h ⟨List.Pairwise.nil,by simp⟩
    exact .map hs hm
  listEnd _ h := h
  listNext _ ha hl h := by
    apply hl
    intro x hx
    rcases List.mem_append.mp hx with hx | hx
    · exact h x hx
    · exact List.mem_singleton.mp hx ▸ ha
  dictEnd _ h := h
  dictKey _ _ hd h := hd h
  dictValue _ ha hd h := by
    refine hd ⟨h.1.insert _ _,?_⟩
    intro e he
    rcases KeyMap.mem_insert he with rfl | he
    · exact ha
    · exact h.2 e he

theorem decodeAny_produced {buf : Bytes} {pos off : ℕ} {v : Value Slice} (h : decodeAny buf pos = .ok (v,off)) :
    Produced buf.length v := ((produced_cases buf).holds _).1 h

theorem bDecodeDict_produced {buf : Bytes} {m : Dict Slice} {off : ℕ} (h : bDecodeDict buf = .ok (m,off)) :
    Produced buf.length (.map m) := by
  obtain ⟨hs,hall⟩ := ((produced_cases buf).holds _).2.2 h ⟨List.Pairwise.nil,by simp⟩
  exact .map hs hall

/-- What the meaning of a decoded map has under a key, the map has. -/
theorem Produced.lookup_denote {size : ℕ} {contents : Slice → Bytes} {m : Dict Slice}
    {e : List (Bytes × Datum)} {k : Bytes} {d : Datum} (hp : Produced size (.map m))
    (hm : (Value.map m).denote contents = some (.dict e)) (hk : e.lookup k = some d) :
    ∃ v, m.lookup k = some v ∧ v.denote contents = some d := by
  cases hp with
  | map hs _ =>
    simp only [Value.denote,Option.map_eq_some_iff,Datum.dict.injEq] at hm
    obtain ⟨ps,hps,rfl⟩ := hm
    have hsorted : KeyMap.Sorted ps := by
      have hkeys := denoteEntries_keys contents hps
      rw [KeyMap.Sorted,← List.pairwise_map (f := Prod.fst) (R := (· < ·))] at hs ⊢
      rw [hkeys]
      exact hs
    rw [hsorted.ofPairs] at hk
    exact denoteEntries_lookup contents hps hk

/-- At a digit the length cannot be negative, so the slice expression stays in range. -/
theorem decodeBytes_digit {buf : Bytes} {pos : ℕ} {b : UInt8} (hb : buf[pos]? = some b) (hd : isDigit b = true) :
    (∃ e, decodeBytes buf pos = .error e) ∨
    ∃ s w suf, decodeBytes buf pos = .ok (s,pos + w.length) ∧ StringWord w (s.read buf) ∧
      buf.drop pos = w ++ suf := by
  obtain ⟨run,-,hi,hrun⟩ := drop_eq_indexFrom ':'.toUInt8 buf pos
  have hdrop := drop_of_getElem? hb
  have hrun' : ∃ t, buf.drop pos = run ++ t := by
    rcases hrun with h | ⟨suf,h⟩
    · exact ⟨[],by simpa using h⟩
    · exact ⟨_,h⟩
  obtain ⟨t,ht⟩ := hrun'
  have hlen := length_of_drop ht (by rw [← ht,hdrop]; simp)
  rw [List.length_append] at hlen
  simp only [decodeBytes,hi,drop_take_of_drop ht]
  cases hl : atoi run with
  | error e => exact .inl ⟨_,rfl⟩
  | ok l =>
    cases run with
    | nil => simp [atoi] at hl
    | cons c run =>
      obtain rfl : c = b := by
        rw [ht] at hdrop
        exact (List.cons.inj hdrop).1
      obtain ⟨hds,hval,hpos⟩ := atoi_digit_head hd hl
      have hmax := l.toInt_lt
      dsimp only
      by_cases h₁ : (buf.length : ℤ) ≤ l.toInt
      · exact .inl ⟨_,if_pos h₁⟩
      by_cases h₂ : (buf.length : ℤ) < (pos + (c :: run).length : ℕ) + l.toInt + 1
      · exact .inl ⟨_,by rw [if_neg h₁,if_pos h₂]⟩
      rw [if_neg h₁,if_neg h₂,if_neg (by omega)]
      rcases hrun with h | ⟨rest,h⟩
      · -- Without a colon the index is the end of the buffer.
        have := length_of_drop h (by simp)
        omega
      have hrest : buf.drop (pos + (c :: run).length + 1) = rest := drop_succ_of_drop (drop_add_of_drop h)
      have hbuf := length_of_drop h (by simp)
      rw [List.length_append,List.length_cons (a := ':'.toUInt8)] at hbuf
      have hs : (rest.take l.toInt.toNat).length = l.toInt.toNat := by
        rw [List.length_take]
        omega
      refine .inr ⟨.view (pos + (c :: run).length + 1) l.toInt.toNat,
        (c :: run) ++ ':'.toUInt8 :: rest.take l.toInt.toNat,rest.drop l.toInt.toNat,?_,?_,?_⟩
      · simp only [List.length_append,List.length_cons,hs]
        congr 2
        omega
      · rw [Slice.read,hrest]
        exact ⟨c :: run,by simp,hds,by omega,by omega,rfl⟩
      · simp only [h,List.append_assoc,List.cons_append,List.take_append_drop]

theorem decodeInt_reads {buf : Bytes} {pos off : ℕ} {n : Int64} (hb : buf[pos]? = some 'i'.toUInt8)
    (h : decodeInt buf pos = .ok (n,off)) : ∃ r, Reads (buf.drop pos) (.int n) r ∧ Behind buf off r := by
  obtain ⟨run,-,hi,hrun⟩ := drop_eq_indexFrom 'e'.toUInt8 buf (pos+1)
  have hdrop := drop_of_getElem? hb
  simp only [decodeInt,hi] at h
  rcases hrun with hr | ⟨suf,hr⟩
  · have hr' : buf.drop (pos+1) = run ++ [] := by simpa using hr
    rw [drop_take_of_drop hr'] at h
    rw [hr] at hdrop
    have hlen := length_of_drop hdrop (by simp)
    rw [List.length_cons] at hlen
    cases ha : atoi run with
    | error e => simp [ha] at h
    | ok m =>
      simp only [ha,Outcome.ok.injEq,Prod.mk.injEq] at h
      obtain ⟨rfl,rfl⟩ := h
      exact ⟨none,hdrop ▸ .openInt ha,by dsimp only [Behind]; omega⟩
  · rw [drop_take_of_drop hr] at h
    rw [hr] at hdrop
    cases ha : atoi run with
    | error e => simp [ha] at h
    | ok m =>
      simp only [ha,Outcome.ok.injEq,Prod.mk.injEq] at h
      obtain ⟨rfl,rfl⟩ := h
      refine ⟨some suf,hdrop ▸ .int ha,drop_succ_of_drop (drop_add_of_drop hr),?_⟩
      have hlen := length_of_drop hr (by simp)
      rw [List.length_append,List.length_cons] at hlen
      omega

theorem ReadsItems.of_nil {xs : List Datum} {r : Option Bytes} (h : ReadsItems [] xs r) : xs = [] ∧ r = none := by
  cases h with
  | finish => exact ⟨rfl,rfl⟩
  | next hx _ => exact absurd hx Reads.ne_nil
  | cut hx => exact absurd hx Reads.ne_nil

theorem StringWord.ne_nil {k key : Bytes} (h : StringWord k key) : k ≠ [] := by
  obtain ⟨b,t,rfl,-⟩ := h.head
  exact List.cons_ne_nil _ _

theorem ReadsEntries.of_nil {t : Bytes} {ps : List (Bytes × Datum)} {r : Option Bytes}
    (h : ReadsEntries t ps r) (ht : t = []) : ps = [] ∧ r = none := by
  cases h with
  | close => cases ht
  | finish => exact ⟨rfl,rfl⟩
  | finishKey hk => exact absurd ht hk.ne_nil
  | closeKey hk => exact absurd (List.append_eq_nil_iff.mp ht).1 hk.ne_nil
  | next hk _ _ => exact absurd (List.append_eq_nil_iff.mp ht).1 hk.ne_nil
  | cut hk _ => exact absurd (List.append_eq_nil_iff.mp ht).1 hk.ne_nil

/-- What the loop of a dictionary reads at `t`, the key being read already or not. -/
def ReadsFrom (key : Option Bytes) (t : Bytes) (ps : List (Bytes × Datum)) (r : Option Bytes) : Prop :=
  match key with
  | none => ReadsEntries t ps r
  | some key => ∀ k, StringWord k key → ReadsEntries (k ++ t) ps r

theorem atEnd_cases {buf : Bytes} {i : ℕ} (h : atEnd buf i = true) :
    (buf.drop i = [] ∧ Behind buf (i+1) none) ∨
    ∃ suf, buf.drop i = 'e'.toUInt8 :: suf ∧ Behind buf (i+1) (some suf) := by
  rcases (atEnd_iff buf i).mp h with hi | hi
  · exact .inl ⟨List.drop_eq_nil_iff.mpr hi,Nat.lt_succ_of_le hi⟩
  · have hd := drop_of_getElem? hi
    exact .inr ⟨_,hd,behind_of_drop (w := ['e'.toUInt8]) hd (by simp)⟩

theorem sound_cases (buf : Bytes) :
    OkCases buf
      (fun pos v off => ∃ d r, v.denote (Slice.read buf) = some d ∧ Reads (buf.drop pos) d r ∧ Behind buf off r)
      (fun i ret xs off => ∀ ds, denoteItems (Slice.read buf) ret = some ds →
        ∃ ys r, denoteItems (Slice.read buf) xs = some (ds ++ ys) ∧ ReadsItems (buf.drop i) ys r ∧ Behind buf off r)
      (fun i key ret m off => ∀ qs, denoteEntries (Slice.read buf) ret = some qs →
        ∃ ps r, denoteEntries (Slice.read buf) m = some (ps.foldl (fun m p => KeyMap.insert p.1 p.2 m) qs) ∧
          ReadsFrom key (buf.drop i) ps r ∧ Behind buf off r) where
  int hb h := by
    obtain ⟨r,hr,hoff⟩ := decodeInt_reads hb h
    exact ⟨_,r,rfl,hr,hoff⟩
  bytes hb hd h := by
    rcases decodeBytes_digit hb hd with ⟨e,he⟩ | ⟨s,w,suf,hs,hw,hdrop⟩
    · rw [he] at h
      cases h
    · rw [hs] at h
      cases h
      exact ⟨_,some suf,rfl,hdrop ▸ .bytes hw,behind_of_drop hdrop hw.ne_nil⟩
  list hb h := by
    obtain ⟨ys,r,hd,hr,hoff⟩ := h [] rfl
    exact ⟨.list ys,r,by simpa [Value.denote] using hd,drop_of_getElem? hb ▸ .list hr,hoff⟩
  dict hb h := by
    obtain ⟨ps,r,hd,hr,hoff⟩ := h [] rfl
    refine ⟨.dict (KeyMap.ofPairs ps),r,?_,drop_of_getElem? hb ▸ .dict hr,hoff⟩
    simp only [Value.denote,hd,Option.map_some]
    rw [(KeyMap.sorted_foldl_insert ps List.Pairwise.nil).ofPairs]
    rfl
  listEnd hend ds hds := by
    rcases atEnd_cases hend with ⟨hi,hoff⟩ | ⟨suf,hi,hoff⟩
    · exact ⟨[],none,by simpa using hds,hi ▸ .finish,hoff⟩
    · exact ⟨[],some suf,by simpa using hds,hi ▸ .close,hoff⟩
  listNext _ ha hl ds hds := by
    obtain ⟨d,r,hd,hr,ho⟩ := ha
    obtain ⟨ys,r',hys,hr',hoff⟩ := hl _ (denoteItems_append_singleton _ hds hd)
    refine ⟨d :: ys,r',by simpa using hys,?_,hoff⟩
    cases r with
    | some t => exact .next hr (ho.1 ▸ hr')
    | none =>
      -- A value that the buffer cut off is the last one.
      rw [List.drop_eq_nil_iff.mpr (Nat.le_of_lt ho)] at hr'
      obtain ⟨rfl,rfl⟩ := hr'.of_nil
      exact .cut hr
  dictEnd {_ key _} hend qs hqs := by
    rcases atEnd_cases hend with ⟨hi,hoff⟩ | ⟨suf,hi,hoff⟩
    · refine ⟨[],none,hqs,?_,hoff⟩
      cases key with
      | none => exact hi ▸ .finish
      | some key =>
        intro k hk
        rw [hi,List.append_nil]
        exact .finishKey hk
    · refine ⟨[],some suf,hqs,?_,hoff⟩
      cases key with
      | none => exact hi ▸ .close
      | some key =>
        intro k hk
        rw [hi]
        exact .closeKey hk
  dictKey _ ha hd qs hqs := by
    obtain ⟨d,r,hden,hr,ho⟩ := ha
    obtain ⟨ps,r',hps,hr',hoff⟩ := hd qs hqs
    cases hden
    refine ⟨ps,r',hps,?_,hoff⟩
    generalize ht : buf.drop _ = t at hr
    cases hr with
    | @bytes w s suf hw =>
      rw [ReadsFrom,← ho.1]
      exact hr' w hw
  dictValue _ ha hd qs hqs := by
    obtain ⟨d,r,hden,hr,ho⟩ := ha
    obtain ⟨ps,r',hps,hr',hoff⟩ := hd _ (denoteEntries_insert _ _ hqs hden)
    refine ⟨(_,d) :: ps,r',hps,?_,hoff⟩
    intro k hk
    cases r with
    | some t => exact .next hk hr (ho.1 ▸ hr')
    | none =>
      obtain ⟨rfl,rfl⟩ := ReadsEntries.of_nil hr' (List.drop_eq_nil_iff.mpr (Nat.le_of_lt ho))
      exact .cut hk hr

/-- A decoded value is one that is read at its position. -/
theorem decodeAny_reads {buf : Bytes} {pos off : ℕ} {v : Value Slice} (h : decodeAny buf pos = .ok (v,off)) :
    ∃ d r, v.denote (Slice.read buf) = some d ∧ Reads (buf.drop pos) d r ∧ Behind buf off r :=
  ((sound_cases buf).holds _).1 h

end DhtOcean.Bencode
