import DhtOcean.Foundation.Bytes

/-! # Decimal text of 64-bit integers

`atoi` reads an optional sign and decimal digits and reports the first failure
from the left, `itoa` writes the shortest decimal. Reading undoes writing on
the whole range of a 64-bit integer.
-/
namespace DhtOcean.Foundation

inductive NumError
  | invalidSyntax
  | outOfRange
  deriving DecidableEq, Repr

def isDigit (b : UInt8) : Bool := decide (48 ≤ b.toNat) && decide (b.toNat ≤ 57)

def digitVal (b : UInt8) : ℕ := b.toNat - 48

/-- Accumulate digits, stopping at the first one that is no digit or overflows 64 bits. -/
def parseUint (n : ℕ) : Bytes → Except NumError ℕ
  | [] => .ok n
  | b :: bs =>
    if isDigit b then
      if 2^64 ≤ n*10 + digitVal b then .error .outOfRange else parseUint (n*10 + digitVal b) bs
    else .error .invalidSyntax

def parseInt (negative : Bool) (ds : Bytes) : Except NumError Int64 :=
  if ds = [] then .error .invalidSyntax
  else match parseUint 0 ds with
    | .error e => .error e
    | .ok n =>
      if negative then if 2^63 < n then .error .outOfRange else .ok (Int64.ofInt (-n))
      else if 2^63 ≤ n then .error .outOfRange else .ok (Int64.ofInt n)

def atoi : Bytes → Except NumError Int64
  | [] => .error .invalidSyntax
  | b :: bs =>
    if b = '-'.toUInt8 then parseInt true bs
    else if b = '+'.toUInt8 then parseInt false bs
    else parseInt false (b :: bs)

def digit (d : ℕ) : UInt8 := UInt8.ofNat (48 + d)

def formatNat (n : ℕ) : Bytes := if n = 0 then [digit 0] else (Nat.digits 10 n).reverse.map digit

def itoa (n : ℤ) : Bytes := if n < 0 then '-'.toUInt8 :: formatNat n.natAbs else formatNat n.natAbs

/-- The number that a run of digits continues. -/
def digitsValue (n : ℕ) (ds : Bytes) : ℕ := ds.foldl (fun n b => n*10 + digitVal b) n

theorem le_digitsValue (n : ℕ) (ds : Bytes) : n ≤ digitsValue n ds := by
  induction ds generalizing n with
  | nil => exact le_rfl
  | cons b ds ih =>
    have h := ih (n*10 + digitVal b)
    simp only [digitsValue,List.foldl_cons] at h ⊢
    omega

theorem parseUint_eq_ok {n m : ℕ} {ds : Bytes} (hn : n < 2^64) :
    parseUint n ds = .ok m ↔ (∀ b ∈ ds, isDigit b = true) ∧ digitsValue n ds = m ∧ m < 2^64 := by
  induction ds generalizing n with
  | nil =>
    simp only [parseUint,digitsValue,List.foldl_nil,Except.ok.injEq]
    constructor
    · rintro rfl
      exact ⟨by simp,rfl,hn⟩
    · exact fun h => h.2.1
  | cons b ds ih =>
    have hle := le_digitsValue (n*10 + digitVal b) ds
    by_cases hb : isDigit b = true
    · by_cases hover : 2^64 ≤ n*10 + digitVal b
      · simp only [parseUint,hb,hover,if_true,reduceCtorEq,false_iff,not_and]
        intro _ hv
        simp only [digitsValue,List.foldl_cons] at hv hle
        omega
      · simp only [parseUint,hb,hover,if_true,if_false]
        rw [ih (by omega)]
        simp [digitsValue,hb]
    · simp [parseUint,hb]

theorem isDigit_digit {d : ℕ} (hd : d < 10) : isDigit (digit d) = true := by
  interval_cases d <;> decide

theorem digitVal_digit {d : ℕ} (hd : d < 10) : digitVal (digit d) = d := by
  interval_cases d <;> decide

theorem digitsValue_reverse_map (ds : List ℕ) (hds : ∀ d ∈ ds, d < 10) :
    digitsValue 0 (ds.reverse.map digit) = Nat.ofDigits 10 ds := by
  induction ds with
  | nil => rfl
  | cons d ds ih =>
    have hd := digitVal_digit (hds d List.mem_cons_self)
    have h := ih (fun x hx => hds x (List.mem_cons_of_mem _ hx))
    simp only [digitsValue] at h
    simp only [digitsValue,List.reverse_cons,List.map_append,List.map_cons,List.map_nil,
      List.foldl_append,List.foldl_cons,List.foldl_nil,h,hd,Nat.ofDigits_cons]
    ring

theorem formatNat_ne_nil (n : ℕ) : formatNat n ≠ [] := by
  unfold formatNat
  split
  · simp
  · rename_i h
    simpa using Nat.digits_ne_nil_iff_ne_zero.mpr h

theorem formatNat_isDigit {n : ℕ} {b : UInt8} (hb : b ∈ formatNat n) : isDigit b = true := by
  unfold formatNat at hb
  split at hb
  · simp only [List.mem_singleton] at hb
    exact hb ▸ isDigit_digit (by omega)
  · obtain ⟨d,hd,rfl⟩ := List.mem_map.mp hb
    exact isDigit_digit (Nat.digits_lt_base (by omega) (List.mem_reverse.mp hd))

theorem digitsValue_formatNat (n : ℕ) : digitsValue 0 (formatNat n) = n := by
  unfold formatNat
  split
  · rename_i h
    subst h
    rfl
  · rw [digitsValue_reverse_map _ (fun d hd => Nat.digits_lt_base (by omega) hd)]
    exact Nat.ofDigits_digits 10 n

theorem parseUint_formatNat {n : ℕ} (hn : n < 2^64) : parseUint 0 (formatNat n) = .ok n :=
  (parseUint_eq_ok (by omega)).mpr ⟨fun _ hb => formatNat_isDigit hb,digitsValue_formatNat n,hn⟩

theorem isDigit_ne {b c : UInt8} (hb : isDigit b = true) (hc : isDigit c = false) : b ≠ c := by
  rintro rfl
  simp [hb] at hc

/-- Unsigned text is read without its first octet being taken for a sign. -/
theorem atoi_of_digit {b : UInt8} {bs : Bytes} (hb : isDigit b = true) :
    atoi (b :: bs) = parseInt false (b :: bs) := by
  have hminus := isDigit_ne hb (c := '-'.toUInt8) (by decide)
  have hplus := isDigit_ne hb (c := '+'.toUInt8) (by decide)
  simp only [atoi,hminus,hplus,if_false]

/-- A run of digits, with or without leading zeros, is read as the number it spells. -/
theorem atoi_digits {ds : Bytes} {n : ℕ} (hne : ds ≠ []) (hds : ∀ b ∈ ds, isDigit b = true)
    (hv : digitsValue 0 ds = n) (hn : n < 2^63) : atoi ds = .ok (Int64.ofInt n) := by
  have hp : parseUint 0 ds = .ok n := (parseUint_eq_ok (by omega)).mpr ⟨hds,hv,by omega⟩
  cases ds with
  | nil => exact absurd rfl hne
  | cons b bs =>
    rw [atoi_of_digit (hds b List.mem_cons_self)]
    simp only [parseInt,hne,hp,if_false,Bool.false_eq_true,show ¬ 2^63 ≤ n by omega]

theorem atoi_formatNat {n : ℕ} (hn : n < 2^63) : atoi (formatNat n) = .ok (Int64.ofInt n) :=
  atoi_digits (formatNat_ne_nil n) (fun _ hb => formatNat_isDigit hb) (digitsValue_formatNat n) hn

/-- A 64-bit integer takes at most a sign and nineteen digits. -/
theorem length_itoa_le (n : Int64) : (itoa n.toInt).length ≤ 20 := by
  have hlo := n.le_toInt
  have hhi := n.toInt_lt
  have hnat : (formatNat n.toInt.natAbs).length ≤ 19 := by
    unfold formatNat
    split
    · simp
    · rw [List.length_map,List.length_reverse,Nat.digits_length_le_iff (by decide)]
      omega
  unfold itoa
  split
  · rw [List.length_cons]
    omega
  · omega

/-- Reading undoes writing on every 64-bit integer. -/
theorem atoi_itoa (n : Int64) : atoi (itoa n.toInt) = .ok n := by
  have hlo := n.le_toInt
  have hhi := n.toInt_lt
  unfold itoa
  split
  · rename_i hneg
    have hp := parseUint_formatNat (n := n.toInt.natAbs) (by omega)
    have habs : -(n.toInt.natAbs : ℤ) = n.toInt := by omega
    simp only [atoi,if_true,parseInt,formatNat_ne_nil,hp,if_false,show ¬ 2^63 < n.toInt.natAbs by omega,
      habs,Int64.ofInt_toInt]
  · rename_i hpos
    have habs : (n.toInt.natAbs : ℤ) = n.toInt := by omega
    rw [atoi_formatNat (by omega),habs,Int64.ofInt_toInt]

theorem parseInt_digits {negative : Bool} {ds : Bytes} {n : Int64} (h : parseInt negative ds = .ok n) :
    ∀ b ∈ ds, isDigit b = true := by
  unfold parseInt at h
  split at h
  · cases h
  · split at h
    · cases h
    · rename_i m hm
      exact ((parseUint_eq_ok (by omega)).mp hm).1

/-- Accepted text holds nothing but digits and a sign. -/
theorem atoi_octets {t : Bytes} {n : Int64} (h : atoi t = .ok n) {b : UInt8} (hb : b ∈ t) :
    isDigit b = true ∨ b = '-'.toUInt8 ∨ b = '+'.toUInt8 := by
  cases t with
  | nil => simp [atoi] at h
  | cons c t =>
    simp only [atoi] at h
    split at h
    · rename_i hc
      rcases List.mem_cons.mp hb with rfl | hb
      · exact Or.inr (Or.inl hc)
      · exact Or.inl (parseInt_digits h b hb)
    · split at h
      · rename_i hc
        rcases List.mem_cons.mp hb with rfl | hb
        · exact Or.inr (Or.inr hc)
        · exact Or.inl (parseInt_digits h b hb)
      · exact Or.inl (parseInt_digits h b hb)

/-- Text that starts with a digit is accepted only as the non-negative number it spells. -/
theorem atoi_digit_head {b : UInt8} {bs : Bytes} {n : Int64} (hb : isDigit b = true)
    (h : atoi (b :: bs) = .ok n) :
    (∀ c ∈ b :: bs, isDigit c = true) ∧ n.toInt = digitsValue 0 (b :: bs) ∧ 0 ≤ n.toInt := by
  rw [atoi_of_digit hb] at h
  refine ⟨parseInt_digits h,?_⟩
  unfold parseInt at h
  simp only [reduceCtorEq,if_false,Bool.false_eq_true] at h
  split at h
  · cases h
  · rename_i m hm
    obtain ⟨-,hv,-⟩ := (parseUint_eq_ok (by omega)).mp hm
    split at h
    · cases h
    · rename_i hlt
      cases h
      rw [Int64.toInt_ofInt_of_le (by omega) (by omega)]
      omega

end DhtOcean.Foundation
