import DhtOcean.Bencode.Sound

/-! # Values that the decoder takes before they are complete

An integer, a list or a dictionary need not be closed before the end of the
buffer, and a dictionary may end behind a key. Everything else that is decoded is
a word of the grammar, and every word is decoded. The two entry points differ in
what they ask of the first octet.
-/
namespace DhtOcean.Bencode
open Foundation

mutual
/-- The value at the front of the text is not closed before the end of the text or has a key without a
value, or a value inside it does, with words before that. -/
inductive Unfinished : Bytes → Prop
  | int {t : Bytes} : 'e'.toUInt8 ∉ t → Unfinished ('i'.toUInt8 :: t)
  | list {t : Bytes} : UnfinishedItems t → Unfinished ('l'.toUInt8 :: t)
  | dict {t : Bytes} : UnfinishedEntries t → Unfinished ('d'.toUInt8 :: t)

inductive UnfinishedItems : Bytes → Prop
  | finish : UnfinishedItems []
  | inItem {t : Bytes} : Unfinished t → UnfinishedItems t
  | next {w t : Bytes} {x : Datum} : Word w x → UnfinishedItems t → UnfinishedItems (w ++ t)

inductive UnfinishedEntries : Bytes → Prop
  | finish : UnfinishedEntries []
  | finishKey {k key : Bytes} : StringWord k key → UnfinishedEntries k
  | closeKey {k key suf : Bytes} : StringWord k key → UnfinishedEntries (k ++ 'e'.toUInt8 :: suf)
  | inValue {k key t : Bytes} : StringWord k key → Unfinished t → UnfinishedEntries (k ++ t)
  | next {k key w t : Bytes} {x : Datum} : StringWord k key → Word w x → UnfinishedEntries t →
      UnfinishedEntries (k ++ (w ++ t))
end

mutual
/-- What is read is a word or not finished. -/
theorem Reads.word_or_unfinished : ∀ {t : Bytes} {d : Datum} {r : Option Bytes}, Reads t d r →
    Unfinished t ∨ ∃ w suf, t = w ++ suf ∧ r = some suf ∧ Word w d
  | _, _, _, @Reads.int t suf n ht => .inr ⟨'i'.toUInt8 :: t ++ ['e'.toUInt8],suf,by simp,rfl,.int ht⟩
  | _, _, _, .openInt ht => .inl (.int (atoi_notMem ht))
  | _, _, _, @Reads.bytes w s suf hw => .inr ⟨w,suf,rfl,rfl,.bytes hw⟩
  | _, _, _, .list hi => by
    rcases hi.word_or_unfinished with hu | ⟨w,suf,rfl,rfl,hw⟩
    · exact .inl (.list hu)
    · exact .inr ⟨_,suf,by simp,rfl,.list hw⟩
  | _, _, _, .dict he => by
    rcases he.word_or_unfinished with hu | ⟨w,suf,rfl,rfl,hw⟩
    · exact .inl (.dict hu)
    · exact .inr ⟨_,suf,by simp,rfl,.dict hw⟩

theorem ReadsItems.word_or_unfinished : ∀ {t : Bytes} {xs : List Datum} {r : Option Bytes}, ReadsItems t xs r →
    UnfinishedItems t ∨ ∃ w suf, t = w ++ 'e'.toUInt8 :: suf ∧ r = some suf ∧ Items w xs
  | _, _, _, @ReadsItems.close suf => .inr ⟨[],suf,rfl,rfl,.nil⟩
  | _, _, _, .finish => .inl .finish
  | _, _, _, .next hx hi => by
    rcases hx.word_or_unfinished with hu | ⟨w,suf,rfl,hsuf,hw⟩
    · exact .inl (.inItem hu)
    · cases hsuf
      rcases hi.word_or_unfinished with hu | ⟨ws,suf,rfl,rfl,hws⟩
      · exact .inl (.next hw hu)
      · exact .inr ⟨w ++ ws,suf,by simp,rfl,.cons hw hws⟩
  | _, _, _, .cut hx => by
    rcases hx.word_or_unfinished with hu | ⟨w,suf,-,hsuf,-⟩
    · exact .inl (.inItem hu)
    · cases hsuf

theorem ReadsEntries.word_or_unfinished :
    ∀ {t : Bytes} {ps : List (Bytes × Datum)} {r : Option Bytes}, ReadsEntries t ps r →
    UnfinishedEntries t ∨ ∃ w suf, t = w ++ 'e'.toUInt8 :: suf ∧ r = some suf ∧ Entries w ps
  | _, _, _, @ReadsEntries.close suf => .inr ⟨[],suf,rfl,rfl,.nil⟩
  | _, _, _, .finish => .inl .finish
  | _, _, _, .closeKey hk => .inl (.closeKey hk)
  | _, _, _, .finishKey hk => .inl (.finishKey hk)
  | _, _, _, @ReadsEntries.next k key t t' x ps r hk hx he => by
    rcases hx.word_or_unfinished with hu | ⟨w,suf,rfl,hsuf,hw⟩
    · exact .inl (.inValue hk hu)
    · cases hsuf
      rcases he.word_or_unfinished with hu | ⟨ws,suf,rfl,rfl,hws⟩
      · exact .inl (.next hk hw hu)
      · exact .inr ⟨k ++ w ++ ws,suf,by simp,rfl,.cons hk hw hws⟩
  | _, _, _, .cut hk hx => by
    rcases hx.word_or_unfinished with hu | ⟨w,suf,-,hsuf,-⟩
    · exact .inl (.inValue hk hu)
    · cases hsuf
end

/-- No word is the beginning of another: the decoder finds the end of both at the same place. -/
theorem Word.unique {w w' a b : Bytes} {x x' : Datum} (hw : Word w x) (hw' : Word w' x') (h : w ++ a = w' ++ b) :
    w = w' ∧ a = b := by
  obtain ⟨v,hv,-⟩ := @Word.accepted (w ++ a) w a x 0 hw rfl
  obtain ⟨v',hv',-⟩ := @Word.accepted (w ++ a) w' b x' 0 hw' (by rw [← h]; rfl)
  have hoff : 0 + w.length = 0 + w'.length := (Prod.mk.inj (Outcome.ok.inj (hv.symm.trans hv'))).2
  exact List.append_inj h (by omega)

theorem StringWord.unique {k k' key key' a b : Bytes} (hk : StringWord k key) (hk' : StringWord k' key')
    (h : k ++ a = k' ++ b) : k = k' ∧ a = b :=
  (Word.bytes hk).unique (.bytes hk') h

theorem Unfinished.head {t : Bytes} (h : Unfinished t) : ∃ b t', t = b :: t' ∧ b ≠ 'e'.toUInt8 := by
  cases h <;> exact ⟨_,_,rfl,by decide⟩

theorem Word.head {w : Bytes} {x : Datum} (h : Word w x) : ∃ b t, w = b :: t ∧ b ≠ 'e'.toUInt8 := by
  have := (h.reads []).head
  rwa [List.append_nil] at this

theorem closed_ne_append {w a suf : Bytes} (hw : ∃ b t, w = b :: t ∧ b ≠ 'e'.toUInt8) :
    'e'.toUInt8 :: suf ≠ w ++ a := by
  obtain ⟨b,t,rfl,hb⟩ := hw
  intro h
  exact hb (List.cons.inj h).1.symm

theorem StringWord.append_ne {w k a t : Bytes} {b : UInt8} (h : StringWord w k) (hb : isDigit b = false) :
    b :: t ≠ w ++ a := by
  obtain ⟨c,u,rfl,hc⟩ := h.head
  intro heq
  exact isDigit_ne hc hb (List.cons.inj heq).1.symm

mutual
/-- What is not finished does not begin with a word. -/
theorem Unfinished.not_word : ∀ {t : Bytes}, Unfinished t → ∀ (w suf : Bytes) (d : Datum), t = w ++ suf → ¬ Word w d
  | _, .int ht => by
    intro w suf d h hw
    cases hw with
    | int _ =>
      obtain ⟨-,htail⟩ := List.cons.inj h
      exact ht (by simp [htail])
    | bytes hs => exact hs.append_ne (by decide) h
    | list _ => exact absurd (List.cons.inj h).1 (by decide)
    | dict _ => exact absurd (List.cons.inj h).1 (by decide)
  | _, .list hu => by
    intro w suf d h hw
    cases hw with
    | int _ => exact absurd (List.cons.inj h).1 (by decide)
    | bytes hs => exact hs.append_ne (by decide) h
    | list hi =>
      obtain ⟨-,htail⟩ := List.cons.inj h
      exact hu.not_items _ _ _ (htail.trans (List.append_assoc _ _ _)) hi
    | dict _ => exact absurd (List.cons.inj h).1 (by decide)
  | _, .dict hu => by
    intro w suf d h hw
    cases hw with
    | int _ => exact absurd (List.cons.inj h).1 (by decide)
    | bytes hs => exact hs.append_ne (by decide) h
    | list _ => exact absurd (List.cons.inj h).1 (by decide)
    | dict he =>
      obtain ⟨-,htail⟩ := List.cons.inj h
      exact hu.not_entries _ _ _ (htail.trans (List.append_assoc _ _ _)) he

theorem UnfinishedItems.not_items : ∀ {t : Bytes}, UnfinishedItems t →
    ∀ (w suf : Bytes) (xs : List Datum), t = w ++ 'e'.toUInt8 :: suf → ¬ Items w xs
  | _, .finish => by
    intro w suf xs h
    simp at h
  | _, .inItem hu => by
    intro w suf xs h hi
    cases hi with
    | nil => exact closed_ne_append hu.head (h.symm.trans (List.append_nil _).symm)
    | cons hw _ =>
      rw [List.append_assoc] at h
      exact hu.not_word _ _ _ h hw
  | _, .next hx hu => by
    intro w suf xs h hi
    cases hi with
    | nil => exact closed_ne_append hx.head h.symm
    | cons hw hrest =>
      rw [List.append_assoc] at h
      exact hu.not_items _ _ _ (hx.unique hw h).2 hrest

theorem UnfinishedEntries.not_entries : ∀ {t : Bytes}, UnfinishedEntries t →
    ∀ (w suf : Bytes) (ps : List (Bytes × Datum)), t = w ++ 'e'.toUInt8 :: suf → ¬ Entries w ps
  | _, .finish => by
    intro w suf ps h
    simp at h
  | k, .finishKey hk => by
    intro w suf ps h he
    cases he with
    | nil => exact closed_ne_append (Word.bytes hk).head (h.symm.trans (List.append_nil _).symm)
    | cons hk' _ _ =>
      rw [List.append_assoc,List.append_assoc,← List.append_nil k] at h
      have hnil := (hk.unique hk' h).2
      simp at hnil
  | _, .closeKey hk => by
    intro w suf ps h he
    cases he with
    | nil => exact closed_ne_append (Word.bytes hk).head h.symm
    | cons hk' hw _ =>
      rw [List.append_assoc,List.append_assoc] at h
      exact closed_ne_append hw.head (hk.unique hk' h).2
  | _, .inValue hk hu => by
    intro w suf ps h he
    cases he with
    | nil => exact closed_ne_append (Word.bytes hk).head h.symm
    | cons hk' hw _ =>
      rw [List.append_assoc,List.append_assoc] at h
      exact hu.not_word _ _ _ (hk.unique hk' h).2 hw
  | _, .next hk hx hu => by
    intro w suf ps h he
    cases he with
    | nil => exact closed_ne_append (Word.bytes hk).head h.symm
    | cons hk' hw hrest =>
      rw [List.append_assoc,List.append_assoc] at h
      exact hu.not_entries _ _ _ (hx.unique hw (hk.unique hk' h).2).2 hrest
end

/-- The text of a value up to its offset is a word, and the value is its meaning. -/
def DecodesWord (buf : Bytes) (pos off : ℕ) (v : Value Slice) : Prop :=
  pos < off ∧ off ≤ buf.length ∧ ∃ d, Word ((buf.take off).drop pos) d ∧ v.denote (Slice.read buf) = some d

/-- What is not finished is no word up to any offset. -/
theorem Unfinished.not_decodesWord {buf : Bytes} {pos off : ℕ} {v : Value Slice} (hu : Unfinished (buf.drop pos)) :
    ¬ DecodesWord buf pos off v := by
  rintro ⟨hlt,hle,d,hw,-⟩
  refine hu.not_word _ (buf.drop off) d ?_ hw
  rw [← List.drop_append_of_le_length (by rw [List.length_take]; omega),List.take_append_drop]

/-- The decoder has read a word exactly when it was given a value that is finished. -/
theorem decodesWord_iff_finished (buf : Bytes) (pos off : ℕ) (v : Value Slice) (h : decodeAny buf pos = .ok (v,off)) :
    DecodesWord buf pos off v ↔ ¬ Unfinished (buf.drop pos) := by
  constructor
  · intro hw hu
    exact hu.not_decodesWord hw
  · intro hfinished
    obtain ⟨d,r,hd,hr,hb⟩ := decodeAny_reads h
    rcases hr.word_or_unfinished with hu | ⟨w,suf,hdrop,rfl,hw⟩
    · exact absurd hu hfinished
    · obtain ⟨b,t,rfl,-⟩ := hw.head
      have hoff := hb.eq hdrop (List.cons_ne_nil b t)
      refine ⟨?_,hb.2,d,?_,hd⟩
      · rw [hoff,List.length_cons]
        omega
      · rw [hoff,drop_take_of_drop hdrop]
        exact hw

theorem five_word : Word (ascii "i5e") (.int 5) := .int (t := ascii "5") rfl

theorem five_finished : ∃ v, decodeAny (ascii "i5e") 0 = .ok (v,3) ∧ DecodesWord (ascii "i5e") 0 3 v := by
  obtain ⟨v,hv,-⟩ := @Word.accepted (ascii "i5e") _ [] _ 0 five_word rfl
  refine ⟨v,hv,(decodesWord_iff_finished _ _ _ _ hv).mpr ?_⟩
  intro hu
  exact hu.not_word _ [] _ rfl five_word

theorem letter_word : StringWord (ascii "1:a") (ascii "a") :=
  ⟨ascii "1",by decide,List.all_eq_true.mp rfl,rfl,show 1 < 2^63 by omega,rfl⟩

/-- Text that can be read is decoded, finished or not. -/
theorem decoded_of_unfinished {buf : Bytes} {d : Datum} {r : Option Bytes} (hr : Reads buf d r) (hu : Unfinished buf) :
    ∃ v off, decodeAny buf 0 = .ok (v,off) ∧ ¬ DecodesWord buf 0 off v := by
  obtain ⟨v,off,hv,-,-⟩ := hr.accepted 0 rfl
  have hdrop : Unfinished (buf.drop 0) := hu
  exact ⟨v,off,hv,hdrop.not_decodesWord⟩

/-- The beginning of an integer, the beginning of a list, and a dictionary with a key alone. -/
theorem unfinished_decoded :
    (∃ v off, decodeAny (ascii "i5") 0 = .ok (v,off) ∧ ¬ DecodesWord (ascii "i5") 0 off v) ∧
    (∃ v off, decodeAny (ascii "l") 0 = .ok (v,off) ∧ ¬ DecodesWord (ascii "l") 0 off v) ∧
    (∃ v off, decodeAny (ascii "d1:ae") 0 = .ok (v,off) ∧ ¬ DecodesWord (ascii "d1:ae") 0 off v) := by
  refine ⟨?_,?_,?_⟩
  · exact decoded_of_unfinished (.openInt (t := ascii "5") (n := 5) rfl) (.int (t := ascii "5") (by decide))
  · exact decoded_of_unfinished (.list .finish) (.list .finish)
  · exact decoded_of_unfinished (.dict (.closeKey letter_word)) (.dict (.closeKey letter_word))

/-- A word is decoded at any place, whatever precedes and follows it. -/
theorem decodeAny_word {w : Bytes} {d : Datum} (hw : Word w d) (pre suf : Bytes) :
    ∃ v, decodeAny (pre ++ w ++ suf) pre.length = .ok (v,pre.length + w.length) ∧
      v.denote (Slice.read (pre ++ w ++ suf)) = some d := by
  apply hw.accepted
  rw [List.append_assoc,List.drop_left]

/-- Keys out of order and repeated, and leading zeros in a number and in a length. -/
theorem careless_word : Word (ascii "d1:bi007e1:ai1e01:bl1:aee")
    (.dict [(ascii "a",.int 1),(ascii "b",.list [.bytes (ascii "a")])]) := by
  have hb : StringWord (ascii "1:b") (ascii "b") :=
    ⟨ascii "1",by decide,List.all_eq_true.mp rfl,rfl,show 1 < 2^63 by omega,rfl⟩
  have hzero : StringWord (ascii "01:b") (ascii "b") :=
    ⟨ascii "01",by decide,List.all_eq_true.mp rfl,rfl,show 1 < 2^63 by omega,rfl⟩
  have hseven : Word (ascii "i007e") (.int 7) := .int (t := ascii "007") rfl
  have hone : Word (ascii "i1e") (.int 1) := .int (t := ascii "1") rfl
  have hlist : Word (ascii "l1:ae") (.list [.bytes (ascii "a")]) := .list (.cons (.bytes letter_word) .nil)
  exact .dict (.cons hb hseven (.cons letter_word hone (.cons hzero hlist .nil)))

theorem careless_decoded : ∃ v, decodeAny (ascii "xd1:bi007e1:ai1e01:bl1:aeeyz") 1 = .ok (v,26) ∧
    v.denote (Slice.read (ascii "xd1:bi007e1:ai1e01:bl1:aeeyz")) =
      some (.dict [(ascii "a",.int 1),(ascii "b",.list [.bytes (ascii "a")])]) :=
  decodeAny_word careless_word (ascii "x") (ascii "yz")

section EntryPoints

/-- `BDecodeDict` succeeds exactly when entries can be read behind the first octet, whatever that is. -/
theorem bDecodeDict_ok_iff {buf : Bytes} :
    (∃ m off, bDecodeDict buf = .ok (m,off)) ↔ ∃ ps r, ReadsEntries (buf.drop 1) ps r := by
  constructor
  · rintro ⟨m,off,hm⟩
    obtain ⟨ps,r,-,hr,-⟩ := ((sound_cases buf).holds _).2.2 hm [] rfl
    exact ⟨ps,r,hr⟩
  · rintro ⟨ps,r,hr⟩
    obtain ⟨m,off,hm,-,-⟩ := hr.accepted 1 [] [] rfl rfl
    exact ⟨m,off,hm⟩

/-- Both entry points find the same maps in a buffer. -/
def EntryPointsAgree (buf : Bytes) : Prop :=
  ∀ m, (∃ off, bDecodeDict buf = .ok (m,off)) ↔ bDecode buf = .ok (.map m)

/-- `BDecodeDict` does not look at the first octet, so it has to be the right one unless the text behind
it is not the inside of a dictionary, closed or cut off. -/
theorem entryPointsAgree_iff (buf : Bytes) :
    EntryPointsAgree buf ↔ buf[0]? = some 'd'.toUInt8 ∨ ∀ ps r, ¬ ReadsEntries (buf.drop 1) ps r := by
  simp only [EntryPointsAgree,bDecode_eq_map]
  constructor
  · intro h
    by_cases hb : buf[0]? = some 'd'.toUInt8
    · exact .inl hb
    · refine .inr fun ps r hr => ?_
      obtain ⟨m,off,hm⟩ := bDecodeDict_ok_iff.mpr ⟨ps,r,hr⟩
      exact hb ((h m).mp ⟨off,hm⟩).1
  · rintro (hb | hnone) m
    · exact ⟨fun h => ⟨hb,h⟩,fun h => h.2⟩
    · have hfails : ¬ ∃ off, bDecodeDict buf = .ok (m,off) := by
        rintro ⟨off,hm⟩
        obtain ⟨ps,r,hr⟩ := bDecodeDict_ok_iff.mp ⟨m,off,hm⟩
        exact hnone ps r hr
      exact iff_of_false hfails fun h => hfails h.2

/-- Nothing, and a text that is no dictionary, are dictionaries for one entry point only. -/
theorem empty_buffer_disagrees :
    bDecodeDict [] = .ok ([],2) ∧ bDecode [] = .error .illegalPayload ∧
    bDecodeDict (ascii "x") = .ok ([],2) ∧ bDecode (ascii "x") = .error (.unsupportedType 'x'.toUInt8) ∧
    ¬ EntryPointsAgree [] ∧ ¬ EntryPointsAgree (ascii "x") := by
  refine ⟨rfl,rfl,rfl,rfl,?_,?_⟩
  · intro h
    cases (h []).mp ⟨2,rfl⟩
  · intro h
    cases (h []).mp ⟨2,rfl⟩

end EntryPoints

end DhtOcean.Bencode
