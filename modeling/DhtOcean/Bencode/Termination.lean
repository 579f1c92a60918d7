import DhtOcean.Bencode.Decode
import Mathlib.Data.Prod.Lex

/-! # Why decoding ends

A call made from `decodeAny` that succeeds returns an offset behind its position,
even where the offset comes from a length in the text and where it lies behind the
end of the buffer. So each call that is entered has less of the buffer left than
the one it is entered from, or is the call of `decodeAny` at the index of a loop.
-/
namespace DhtOcean.Bencode
open Foundation

/-- A call of `decodeAny` at a position, or a loop at an index. -/
inductive Frame
  | any (pos : ℕ)
  | listLoop (i : ℕ)
  | dictLoop (i : ℕ)

/-- The first frame is entered from the second, which waits for it or goes on as it. -/
inductive Enters (buf : Bytes) : Frame → Frame → Prop
  | list {pos : ℕ} : buf[pos]? = some 'l'.toUInt8 → Enters buf (.listLoop (pos+1)) (.any pos)
  | dict {pos : ℕ} : buf[pos]? = some 'd'.toUInt8 → Enters buf (.dictLoop (pos+1)) (.any pos)
  | item {i : ℕ} : ¬ atEnd buf i = true → Enters buf (.any i) (.listLoop i)
  | entry {i : ℕ} : ¬ atEnd buf i = true → Enters buf (.any i) (.dictLoop i)
  | nextItem {i offset : ℕ} {item : Value Slice} : ¬ atEnd buf i = true → decodeAny buf i = .ok (item,offset) →
      Enters buf (.listLoop offset) (.listLoop i)
  | nextEntry {i offset : ℕ} {item : Value Slice} : ¬ atEnd buf i = true → decodeAny buf i = .ok (item,offset) →
      Enters buf (.dictLoop offset) (.dictLoop i)

/-- What is left of the buffer, and nothing once the offset is behind its end. -/
def remaining (buf : Bytes) : Frame → ℕ
  | .any pos => buf.length - pos
  | .listLoop i => buf.length - i
  | .dictLoop i => buf.length - i

def frameRank : Frame → ℕ
  | .any _ => 0
  | _ => 1

def potential (buf : Bytes) (f : Frame) : ℕ ×ₗ ℕ := toLex (remaining buf f,frameRank f)

section
variable {buf : Bytes}

theorem decodeAny_progress {pos off : ℕ} {v : Value Slice} (h : decodeAny buf pos = .ok (v,off)) : pos < off :=
  ((progress buf).holds _).1 h

theorem decodeList_progress {pos off : ℕ} {xs : List (Value Slice)} (h : decodeList buf pos = .ok (xs,off)) :
    pos < off := by
  have hloop : pos + 1 < off := ((progress buf).holds _).2.1 h
  omega

theorem decodeDict_progress {pos off : ℕ} {m : Dict Slice} (h : decodeDict buf pos = .ok (m,off)) :
    pos < off := by
  have hloop : pos + 1 < off := ((progress buf).holds _).2.2 h
  omega

theorem Enters.potential_lt {callee caller : Frame} (h : Enters buf callee caller) :
    potential buf callee < potential buf caller := by
  cases h with
  | list hb =>
    have hpos := (List.getElem?_eq_some_iff.mp hb).1
    exact Prod.Lex.left _ _ (by simp only [remaining]; omega)
  | dict hb =>
    have hpos := (List.getElem?_eq_some_iff.mp hb).1
    exact Prod.Lex.left _ _ (by simp only [remaining]; omega)
  | item => exact Prod.Lex.right _ Nat.zero_lt_one
  | entry => exact Prod.Lex.right _ Nat.zero_lt_one
  | nextItem hend ha =>
    have hi := lt_of_not_atEnd hend
    have hp := decodeAny_progress ha
    exact Prod.Lex.left _ _ (by simp only [remaining]; omega)
  | nextEntry hend ha =>
    have hi := lt_of_not_atEnd hend
    have hp := decodeAny_progress ha
    exact Prod.Lex.left _ _ (by simp only [remaining]; omega)

theorem enters_wellFounded (buf : Bytes) : WellFounded (Enters buf) :=
  (InvImage.wf (potential buf) wellFounded_lt).mono fun _ _ h => h.potential_lt

/-- Fuel for what is left of the buffer is as good as any more of it. -/
theorem decodeAnyFuel_add {pos fuel : ℕ} (hfuel : 2*remaining buf (.any pos) + 1 ≤ fuel) (more : ℕ) :
    decodeAnyFuel buf (fuel+more) pos = decodeAnyFuel buf fuel pos := by
  simp only [remaining] at hfuel
  induction more with
  | zero => rfl
  | succ more ih =>
    have hstep := ((fuel_step buf (fuel+more)).1 pos (by omega)).1
    exact hstep.trans ih

theorem decodeAnyFuel_eq {pos fuel : ℕ} (hfuel : 2*remaining buf (.any pos) + 1 ≤ fuel) :
    decodeAnyFuel buf fuel pos = decodeAny buf pos := by
  have hdepth : 2*remaining buf (.any pos) + 1 ≤ callDepth buf := by
    simp only [remaining,callDepth]
    omega
  rcases Nat.le_total fuel (callDepth buf) with hle | hle
  · obtain ⟨more,hmore⟩ := Nat.exists_eq_add_of_le hle
    rw [decodeAny,hmore,decodeAnyFuel_add hfuel]
  · obtain ⟨more,rfl⟩ := Nat.exists_eq_add_of_le hle
    rw [decodeAny,decodeAnyFuel_add hdepth]

end

/-- The calls that `decodeAny` makes get on, and they come to an end. -/
structure Terminates (buf : Bytes) : Prop where
  any : ∀ {pos v off}, decodeAny buf pos = .ok (v,off) → pos < off
  list : ∀ {pos xs off}, decodeList buf pos = .ok (xs,off) → pos < off
  dict : ∀ {pos m off}, decodeDict buf pos = .ok (m,off) → pos < off
  bytes : ∀ {pos s off}, decodeBytes buf pos = .ok (s,off) → pos < off
  int : ∀ {pos n off}, decodeInt buf pos = .ok (n,off) → pos < off
  /-- Only the call at the index of a loop has as much of the buffer left as the loop. -/
  decreasing : ∀ {callee caller}, Enters buf callee caller →
    remaining buf callee < remaining buf caller ∨
    remaining buf callee = remaining buf caller ∧ frameRank callee < frameRank caller
  wellFounded : WellFounded (Enters buf)
  /-- As many nested calls as the rest of the buffer allows are enough. -/
  fuel : ∀ {pos fuel}, 2*remaining buf (.any pos) + 1 ≤ fuel →
    decodeAnyFuel buf fuel pos = decodeAny buf pos ∧ decodeAnyFuel buf fuel pos ≠ .hang
  ends : bDecode buf ≠ .hang ∧ bDecodeDict buf ≠ .hang

/-- Decoding terminates on every buffer, truncated, malformed or deeply nested. -/
theorem decoder_terminates (buf : Bytes) : Terminates buf where
  any := decodeAny_progress
  list := decodeList_progress
  dict := decodeDict_progress
  bytes := decodeBytes_progress
  int := decodeInt_progress
  decreasing h := by
    rcases Prod.Lex.lt_iff.mp h.potential_lt with hlt | ⟨heq,hlt⟩
    · exact .inl hlt
    · exact .inr ⟨heq,hlt⟩
  wellFounded := enters_wellFounded buf
  fuel hfuel := ⟨decodeAnyFuel_eq hfuel,((fuel_step buf _).1 _ hfuel).2⟩
  ends := by
    constructor
    · refine Outcome.bind_ne_hang ?_ (fun _ => by simp)
      exact ((fuel_step buf (callDepth buf)).1 0 (by unfold callDepth; omega)).2
    · exact dictLoop_ne_hang buf 1 none []

end DhtOcean.Bencode
