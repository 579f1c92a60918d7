import DhtOcean.Bencode.Encode
import DhtOcean.Bencode.Sound

/-! # Decoding undoes encoding

The encoder writes a word for the meaning of a value and the decoder reads that
meaning back from any context.
-/
namespace DhtOcean.Bencode
open Foundation

/-- In any context an encoded value is decoded to the same meaning, with every string
as a byte slice, and to the offset right behind it. -/
theorem decodeAny_bEncode {v : Value Bytes} (hv : Bencodable v) (pre suf : Bytes) :
    ∃ w v' d, bEncode v = .ok w ∧
      decodeAny (pre ++ w ++ suf) pre.length = .ok (v',pre.length + w.length) ∧
      Produced (pre ++ w ++ suf).length v' ∧
      v.denote id = some d ∧ v'.denote (Slice.read (pre ++ w ++ suf)) = some d := by
  obtain ⟨w,d,hw,hd,hword⟩ := hv.written
  have hdrop : (pre ++ w ++ suf).drop pre.length = w ++ suf := by rw [List.append_assoc,List.drop_left]
  obtain ⟨v',hv',hd'⟩ := hword.accepted hdrop
  exact ⟨w,v',d,hw,hv',decodeAny_produced hv',hd,hd'⟩

/-- A negative integer, and a string that looks like a terminator and a length, inside a map. -/
def nestedSample : Value Bytes :=
  .map [(ascii "b",.list [.int (-7),.str (ascii "e:1")]),(ascii "a",.bytes [])]

theorem nestedSample_bencodable : Bencodable nestedSample := by
  refine .map (by decide) (by decide) ?_
  simp only [List.mem_cons,List.not_mem_nil,or_false,forall_eq_or_imp,forall_eq]
  refine ⟨.list ?_,.bytes (by decide)⟩
  simp only [List.mem_cons,List.not_mem_nil,or_false,forall_eq_or_imp,forall_eq]
  exact ⟨.int _,.str (by decide)⟩

theorem nestedSample_roundTrip :
    bEncode nestedSample = .ok (ascii "d1:a0:1:bli-7e3:e:1ee") ∧
    ∃ v', decodeAny (ascii "xd1:a0:1:bli-7e3:e:1eei") 1 = .ok (v',22) ∧
      v'.denote (Slice.read (ascii "xd1:a0:1:bli-7e3:e:1eei")) = nestedSample.denote id := by
  have hw : bEncode nestedSample = .ok (ascii "d1:a0:1:bli-7e3:e:1ee") := by decide +kernel
  obtain ⟨w,v',d,hw',hv',-,hd,hd'⟩ := decodeAny_bEncode nestedSample_bencodable (ascii "x") (ascii "i")
  obtain rfl : w = ascii "d1:a0:1:bli-7e3:e:1ee" := by
    rw [hw] at hw'
    exact (Except.ok.inj hw').symm
  exact ⟨hw,v',hv',hd'.trans hd.symm⟩

end DhtOcean.Bencode
