import DhtOcean.Foundation.Bytes
import DhtOcean.Foundation.FrontSlice

/-! # Hexadecimal decoding

Two digits make an octet. The octets are written over the text they come from, so
that the slice of the result has the rest of the text, and whatever the array has
besides, behind its end.
-/
namespace DhtOcean.Foundation

inductive HexError
  | invalidByte (b : UInt8)
  | length
  deriving DecidableEq, Repr

def hexValue (c : UInt8) : Option UInt8 :=
  if '0'.toUInt8 ≤ c ∧ c ≤ '9'.toUInt8 then some (c - '0'.toUInt8)
  else if 'a'.toUInt8 ≤ c ∧ c ≤ 'f'.toUInt8 then some (c - 'a'.toUInt8 + 10)
  else if 'A'.toUInt8 ≤ c ∧ c ≤ 'F'.toUInt8 then some (c - 'A'.toUInt8 + 10)
  else none

def hexDigit (n : ℕ) : UInt8 := if n < 10 then '0'.toUInt8 + UInt8.ofNat n else 'a'.toUInt8 + UInt8.ofNat (n - 10)

/-- `hex.EncodeToString`. -/
def encodeHex (b : Bytes) : Bytes := b.flatMap (fun o => [hexDigit (o.toNat / 16),hexDigit (o.toNat % 16)])

/-- An invalid digit is reported rather than an odd length. -/
def decodeHex : Bytes → Except HexError Bytes
  | [] => .ok []
  | [p] => .error (if (hexValue p).isSome then .length else .invalidByte p)
  | p :: q :: rest =>
    match hexValue p, hexValue q with
    | none, _ => .error (.invalidByte p)
    | some _, none => .error (.invalidByte q)
    | some a, some b => (decodeHex rest).map ((a <<< 4 ||| b) :: ·)

theorem decodeHex_digits {n : ℕ} {s : Bytes} (hlen : s.length = 2*n) (hs : ∀ c ∈ s, (hexValue c).isSome) :
    ∃ b, decodeHex s = .ok b ∧ b.length = n := by
  induction n generalizing s with
  | zero =>
    cases List.length_eq_zero_iff.mp hlen
    exact ⟨[],rfl,rfl⟩
  | succ n ih =>
    obtain ⟨p,q,rest,rfl⟩ : ∃ p q rest, s = p :: q :: rest := by
      match s, hlen with
      | p :: q :: rest, _ => exact ⟨p,q,rest,rfl⟩
    obtain ⟨a,ha⟩ := Option.isSome_iff_exists.mp (hs p List.mem_cons_self)
    obtain ⟨b,hb⟩ := Option.isSome_iff_exists.mp (hs q (List.mem_cons_of_mem _ List.mem_cons_self))
    obtain ⟨r,hr,hn⟩ := ih (s := rest) (by simp only [List.length_cons] at hlen; omega)
      (fun c hc => hs c (List.mem_cons_of_mem _ (List.mem_cons_of_mem _ hc)))
    refine ⟨_,by simp only [decodeHex,ha,hb,hr]; rfl,?_⟩
    rw [List.length_cons,hn]

/-- `hex.DecodeString`; `spare` is how much longer than `n` octets the runtime makes an array for them. -/
def decodeString (spare : ℕ → ℕ) (s : Bytes) : Except HexError (FrontSlice UInt8) :=
  (decodeHex s).map (fun b => ⟨b ++ (s.drop b.length ++ List.replicate (spare s.length) 0),b.length,by simp⟩)

theorem decodeString_eq_ok {spare : ℕ → ℕ} {s : Bytes} {slice : FrontSlice UInt8}
    (h : decodeString spare s = .ok slice) : decodeHex s = .ok slice.contents := by
  unfold decodeString at h
  cases hb : decodeHex s with
  | error e =>
    rw [hb] at h
    cases h
  | ok b =>
    rw [hb] at h
    cases h
    simp [FrontSlice.contents]

end DhtOcean.Foundation
