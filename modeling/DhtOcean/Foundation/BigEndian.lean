import DhtOcean.Foundation.Bytes

/-! # Numbers in network order

A number of fixed width is written with its most significant octet first. A value
of fixed size is read whole from the front of what remains, or not at all.
-/
namespace DhtOcean.Foundation

/-- The last `width` octets of `n`. -/
def beBytes : ℕ → ℕ → Bytes
  | 0, _ => []
  | width+1, n => beBytes width (n / 256) ++ [UInt8.ofNat n]

def beValue (b : Bytes) : ℕ := b.foldl (fun acc octet => 256*acc + octet.toNat) 0

@[simp] theorem length_beBytes (width n : ℕ) : (beBytes width n).length = width := by
  induction width generalizing n with
  | zero => rfl
  | succ width ih => rw [beBytes,List.length_append,ih,List.length_singleton]

theorem beValue_append_singleton (b : Bytes) (octet : UInt8) :
    beValue (b ++ [octet]) = 256*beValue b + octet.toNat := by
  simp [beValue,List.foldl_append]

theorem beValue_beBytes {width n : ℕ} (h : n < 256^width) : beValue (beBytes width n) = n := by
  induction width generalizing n with
  | zero =>
    have hn : n = 0 := by omega
    simp [hn,beBytes,beValue]
  | succ width ih =>
    have hdiv : n / 256 < 256^width := by
      rw [Nat.div_lt_iff_lt_mul (by decide),← Nat.pow_succ]
      exact h
    rw [beBytes,beValue_append_singleton,ih hdiv,UInt8.toNat_ofNat']
    omega

theorem beValue_lt (b : Bytes) : beValue b < 256^b.length := by
  induction b using List.reverseRecOn with
  | nil => simp [beValue]
  | append_singleton b octet ih =>
    have hoctet := octet.toNat_lt
    rw [beValue_append_singleton,List.length_append,List.length_singleton,Nat.pow_succ]
    omega

theorem beBytes_beValue (b : Bytes) : beBytes b.length (beValue b) = b := by
  induction b using List.reverseRecOn with
  | nil => rfl
  | append_singleton b octet ih =>
    have hoctet := octet.toNat_lt
    have hdiv : (256*beValue b + octet.toNat) / 256 = beValue b := by omega
    have hlast : UInt8.ofNat (256*beValue b + octet.toNat) = octet := by
      apply UInt8.toNat_inj.mp
      rw [UInt8.toNat_ofNat']
      omega
    rw [List.length_append,List.length_singleton,beBytes,beValue_append_singleton,hdiv,hlast,ih]

/-- `io.ReadFull` and `binary.Read` of a value of fixed size. -/
def readFixed {A : Type} (size : ℕ) (decode : Bytes → A) (reader : Bytes) : Option (A × Bytes) :=
  if size ≤ reader.length then some (decode (reader.take size),reader.drop size) else none

theorem readFixed_eq_some {A : Type} {size : ℕ} {decode : Bytes → A} {reader rest : Bytes} {a : A} :
    readFixed size decode reader = some (a,rest) ↔
      size ≤ reader.length ∧ decode (reader.take size) = a ∧ reader.drop size = rest := by
  rw [readFixed,Option.ite_none_right_eq_some,Option.some.injEq,Prod.mk.injEq]

theorem readFixed_append {A : Type} {size : ℕ} (decode : Bytes → A) {b : Bytes} (hb : b.length = size) (rest : Bytes) :
    readFixed size decode (b ++ rest) = some (decode b,rest) := by
  rw [readFixed_eq_some,List.take_left' hb,List.drop_left' hb,List.length_append,hb]
  exact ⟨Nat.le_add_right _ _,rfl,rfl⟩

end DhtOcean.Foundation
