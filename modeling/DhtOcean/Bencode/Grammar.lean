import DhtOcean.Bencode.Value
import DhtOcean.Foundation.Decimal

/-! # The bencode grammar and a lenient reading of it

`Word` is the grammar with its meaning: key order, repeated keys and leading
zeros are free, and a repeated key takes its last value. `Reads` is a lenient
reading of text that also takes an integer, list or dictionary that the end of
the text cuts off, and that drops a key without a value. `KeyClash` says that
this reading meets a value other than a string where a key is due.
-/
namespace DhtOcean.Bencode
open Foundation

/-- A length in decimal digits that fits 64 bits, a colon and that many octets. -/
def StringWord (w s : Bytes) : Prop :=
  ∃ ds, ds ≠ [] ∧ (∀ b ∈ ds, isDigit b = true) ∧ digitsValue 0 ds = s.length ∧ s.length < 2^63 ∧
    w = ds ++ ':'.toUInt8 :: s

mutual
inductive Word : Bytes → Datum → Prop
  | int {t : Bytes} {n : Int64} : atoi t = .ok n → Word ('i'.toUInt8 :: t ++ ['e'.toUInt8]) (.int n)
  | bytes {w s : Bytes} : StringWord w s → Word w (.bytes s)
  | list {w : Bytes} {xs : List Datum} : Items w xs → Word ('l'.toUInt8 :: w ++ ['e'.toUInt8]) (.list xs)
  | dict {w : Bytes} {ps : List (Bytes × Datum)} : Entries w ps →
      Word ('d'.toUInt8 :: w ++ ['e'.toUInt8]) (.dict (KeyMap.ofPairs ps))

inductive Items : Bytes → List Datum → Prop
  | nil : Items [] []
  | cons {w ws : Bytes} {x : Datum} {xs : List Datum} : Word w x → Items ws xs → Items (w ++ ws) (x :: xs)

inductive Entries : Bytes → List (Bytes × Datum) → Prop
  | nil : Entries [] []
  | cons {k key w ws : Bytes} {x : Datum} {ps : List (Bytes × Datum)} : StringWord k key → Word w x →
      Entries ws ps → Entries (k ++ w ++ ws) ((key,x) :: ps)
end

mutual
/-- Text, the value read from its front, and the text behind that value; `none`
when the end of the text cut the value off. -/
inductive Reads : Bytes → Datum → Option Bytes → Prop
  | int {t suf : Bytes} {n : Int64} : atoi t = .ok n →
      Reads ('i'.toUInt8 :: t ++ 'e'.toUInt8 :: suf) (.int n) (some suf)
  | openInt {t : Bytes} {n : Int64} : atoi t = .ok n → Reads ('i'.toUInt8 :: t) (.int n) none
  | bytes {w s suf : Bytes} : StringWord w s → Reads (w ++ suf) (.bytes s) (some suf)
  | list {t : Bytes} {xs : List Datum} {r : Option Bytes} : ReadsItems t xs r →
      Reads ('l'.toUInt8 :: t) (.list xs) r
  | dict {t : Bytes} {ps : List (Bytes × Datum)} {r : Option Bytes} : ReadsEntries t ps r →
      Reads ('d'.toUInt8 :: t) (.dict (KeyMap.ofPairs ps)) r

inductive ReadsItems : Bytes → List Datum → Option Bytes → Prop
  | close {suf : Bytes} : ReadsItems ('e'.toUInt8 :: suf) [] (some suf)
  | finish : ReadsItems [] [] none
  | next {t t' : Bytes} {x : Datum} {xs : List Datum} {r : Option Bytes} : Reads t x (some t') →
      ReadsItems t' xs r → ReadsItems t (x :: xs) r
  | cut {t : Bytes} {x : Datum} : Reads t x none → ReadsItems t [x] none

inductive ReadsEntries : Bytes → List (Bytes × Datum) → Option Bytes → Prop
  | close {suf : Bytes} : ReadsEntries ('e'.toUInt8 :: suf) [] (some suf)
  | finish : ReadsEntries [] [] none
  | closeKey {k key suf : Bytes} : StringWord k key → ReadsEntries (k ++ 'e'.toUInt8 :: suf) [] (some suf)
  | finishKey {k key : Bytes} : StringWord k key → ReadsEntries k [] none
  | next {k key t t' : Bytes} {x : Datum} {ps : List (Bytes × Datum)} {r : Option Bytes} : StringWord k key →
      Reads t x (some t') → ReadsEntries t' ps r → ReadsEntries (k ++ t) ((key,x) :: ps) r
  | cut {k key t : Bytes} {x : Datum} : StringWord k key → Reads t x none →
      ReadsEntries (k ++ t) [(key,x)] none
end

mutual
/-- Somewhere in the value at the front of the text a key position holds another value than a string. -/
inductive KeyClash : Bytes → Prop
  | list {t : Bytes} : ItemClash t → KeyClash ('l'.toUInt8 :: t)
  | dict {t : Bytes} : EntryClash t → KeyClash ('d'.toUInt8 :: t)

inductive ItemClash : Bytes → Prop
  | inItem {t : Bytes} : KeyClash t → ItemClash t
  | next {t t' : Bytes} {x : Datum} : Reads t x (some t') → ItemClash t' → ItemClash t

inductive EntryClash : Bytes → Prop
  | key {t : Bytes} {x : Datum} {r : Option Bytes} : Reads t x r → (∀ s, x ≠ .bytes s) → EntryClash t
  | inKey {t : Bytes} : KeyClash t → EntryClash t
  | inValue {k key t : Bytes} : StringWord k key → KeyClash t → EntryClash (k ++ t)
  | next {k key t t' : Bytes} {x : Datum} : StringWord k key → Reads t x (some t') → EntryClash t' →
      EntryClash (k ++ t)
end

theorem StringWord.head {w s : Bytes} (h : StringWord w s) : ∃ b t, w = b :: t ∧ isDigit b = true := by
  obtain ⟨ds,hne,hd,-,-,rfl⟩ := h
  cases ds with
  | nil => exact absurd rfl hne
  | cons b ds => exact ⟨b,ds ++ ':'.toUInt8 :: s,rfl,hd b List.mem_cons_self⟩

/-- The first octet of a value is never the one that closes a container. -/
theorem Reads.head {t : Bytes} {d : Datum} {r : Option Bytes} (h : Reads t d r) :
    ∃ b t', t = b :: t' ∧ b ≠ 'e'.toUInt8 := by
  cases h with
  | bytes hs =>
    obtain ⟨b,t,rfl,hb⟩ := hs.head
    exact ⟨b,t ++ _,rfl,isDigit_ne hb (by decide)⟩
  | _ => exact ⟨_,_,rfl,by decide⟩

theorem KeyClash.head {t : Bytes} (h : KeyClash t) : ∃ b t', t = b :: t' ∧ b ≠ 'e'.toUInt8 := by
  cases h <;> exact ⟨_,_,rfl,by decide⟩

theorem Reads.ne_nil {d : Datum} {r : Option Bytes} : ¬ Reads [] d r := by
  intro h
  obtain ⟨b,t,he,-⟩ := h.head
  cases he

theorem KeyClash.ne_nil : ¬ KeyClash [] := by
  intro h
  obtain ⟨b,t,he,-⟩ := h.head
  cases he

mutual
/-- A word is read up to its end, whatever follows it. -/
theorem Word.reads : ∀ {w : Bytes} {d : Datum}, Word w d → ∀ suf, Reads (w ++ suf) d (some suf)
  | _, _, @Word.int t n ht => fun suf => by simpa using @Reads.int t suf n ht
  | _, _, .bytes hs => fun _ => .bytes hs
  | _, _, @Word.list w xs hi => fun suf => by
    have h := Reads.list (hi.reads _ _ _ (@ReadsItems.close suf))
    simpa using h
  | _, _, @Word.dict w ps he => fun suf => by
    have h := Reads.dict (he.reads _ _ _ (@ReadsEntries.close suf))
    simpa using h

theorem Items.reads : ∀ {w : Bytes} {xs : List Datum}, Items w xs →
    ∀ t ys r, ReadsItems t ys r → ReadsItems (w ++ t) (xs ++ ys) r
  | _, _, .nil => fun _ _ _ h => h
  | _, _, .cons hw hi => fun t ys r h => by
    rw [List.append_assoc]
    exact .next (hw.reads _) (hi.reads t ys r h)

theorem Entries.reads : ∀ {w : Bytes} {ps : List (Bytes × Datum)}, Entries w ps →
    ∀ t qs r, ReadsEntries t qs r → ReadsEntries (w ++ t) (ps ++ qs) r
  | _, _, .nil => fun _ _ _ h => h
  | _, _, .cons hk hw he => fun t qs r h => by
    rw [List.append_assoc,List.append_assoc]
    exact .next hk (hw.reads _) (he.reads t qs r h)
end

end DhtOcean.Bencode
