import Mathlib.Data.List.Basic

/-! # Buffered readers over a stream that arrives in chunks

A source hands out what has arrived, at most as much as asked for. A buffered
reader sits on a source or on another buffered reader. Whatever the chunks and
the buffers, the elements come out in order, and a full read gets what it asks
for as long as the stream has it.
-/
namespace DhtOcean.Foundation
variable {α : Type}

def minReadBufferSize : ℕ := 16

/-- The capacity of a read buffer. -/
abbrev BufSize := {n : ℕ // minReadBufferSize ≤ n}

inductive Reader (α : Type)
  | source (chunks : List (List α))
  | buffered (size : BufSize) (buf : List α) (rd : Reader α)

inductive ReadError
  | eof
  | unexpectedEOF
  deriving DecidableEq, Repr

namespace Reader

/-- What the reader has yet to deliver. -/
def pending : Reader α → List α
  | source chunks => chunks.flatten
  | buffered _ buf rd => buf ++ rd.pending

/-- The capacity of the outermost buffer. -/
def size : Reader α → ℕ
  | source _ => 0
  | buffered size _ _ => size

/-- A buffered reader that is large enough is used as it is. -/
def newReaderSize (size : ℕ) : Reader α → Reader α
  | source chunks => buffered ⟨max size minReadBufferSize,Nat.le_max_right _ _⟩ [] (source chunks)
  | buffered old buf rd =>
    if size ≤ old.val then buffered old buf rd
    else buffered ⟨max size minReadBufferSize,Nat.le_max_right _ _⟩ [] (buffered old buf rd)

/-- At most `n` elements of the first chunk that has any; none at the end of the stream. -/
def readSource (n : ℕ) : List (List α) → List α × List (List α)
  | [] => ([],[])
  | [] :: chunks => readSource n chunks
  | (a :: chunk) :: chunks => ((a :: chunk).take n,(a :: chunk).drop n :: chunks)

/-- One `Read` into a slice of length `n`. With its buffer empty, a buffered reader passes a large
request on and otherwise fills the buffer by one read. -/
def read (n : ℕ) : Reader α → List α × Reader α
  | source chunks =>
    let (out,chunks) := readSource n chunks
    (out,source chunks)
  | buffered size [] rd =>
    if size.val ≤ n then
      let (out,rd) := rd.read n
      (out,buffered size [] rd)
    else
      let (got,rd) := rd.read size
      (got.take n,buffered size (got.drop n) rd)
  | buffered size (a :: buf) rd => ((a :: buf).take n,buffered size ((a :: buf).drop n) rd)

/-- The loop of `io.ReadAtLeast`, which ends when nothing more comes. Every read delivers
something until then, so `n` rounds are enough. -/
def readLoop : ℕ → ℕ → Reader α → List α × Reader α
  | 0, _, rd => ([],rd)
  | rounds+1, n, rd =>
    if n = 0 then ([],rd)
    else
      let (out,rd) := rd.read n
      if out.isEmpty then ([],rd)
      else
        let (rest,rd) := readLoop rounds (n - out.length) rd
        (out ++ rest,rd)

/-- `io.ReadFull` into a slice of length `n`. -/
def readFull (n : ℕ) (rd : Reader α) : Except ReadError (List α × Reader α) :=
  let (out,rd) := readLoop n n rd
  if out.length = n then .ok (out,rd)
  else if out.isEmpty then .error .eof
  else .error .unexpectedEOF

@[simp] theorem pending_newReaderSize (size : ℕ) (rd : Reader α) :
    (newReaderSize size rd).pending = rd.pending := by
  cases rd with
  | source chunks => rfl
  | buffered old buf rd =>
    rw [newReaderSize]
    split <;> rfl

/-- One read delivers the next elements, at most as many as asked for and at least one if there is one. -/
structure Delivers (n : ℕ) (pending out rest : List α) : Prop where
  split : out ++ rest = pending
  atMost : out.length ≤ n
  some : pending ≠ [] → out ≠ []

theorem readSource_delivers {n : ℕ} (hn : 0 < n) (chunks : List (List α)) :
    Delivers n chunks.flatten (readSource n chunks).1 (readSource n chunks).2.flatten := by
  fun_induction readSource n chunks with
  | case1 => exact ⟨rfl,by simp,by simp⟩
  | case2 chunks ih => simpa using ih
  | case3 a chunk chunks =>
    refine ⟨?_,List.length_take_le _ _,?_⟩
    · rw [List.flatten_cons,List.flatten_cons,← List.append_assoc,List.take_append_drop]
    · simp [Nat.ne_of_gt hn]

/-- Of what a larger read delivers, a part is handed out and the rest kept. -/
theorem Delivers.take {n m : ℕ} {pending out rest : List α} (h : Delivers m pending out rest) (hn : 0 < n) :
    Delivers n pending (out.take n) (out.drop n ++ rest) := by
  refine ⟨?_,List.length_take_le _ _,?_⟩
  · rw [← List.append_assoc,List.take_append_drop,h.split]
  · intro hne
    have hout := h.some hne
    simp [Nat.ne_of_gt hn,hout]

theorem read_delivers {n : ℕ} (hn : 0 < n) (rd : Reader α) :
    Delivers n rd.pending (rd.read n).1 (rd.read n).2.pending := by
  induction rd generalizing n with
  | source chunks => exact readSource_delivers hn chunks
  | buffered size buf rd ih =>
    cases buf with
    | nil =>
      by_cases hsize : size.val ≤ n
      · simpa [read,hsize,pending] using ih hn
      · have hpos : 0 < size.val := Nat.lt_of_lt_of_le (by decide) size.property
        simpa [read,hsize,pending] using (ih hpos).take hn
    | cons a buf =>
      refine ⟨?_,List.length_take_le _ _,?_⟩
      · simp only [read,pending]
        rw [← List.append_assoc,List.take_append_drop]
      · simp [read,Nat.ne_of_gt hn]

/-- A read of no more than is wanted delivers the front of it. -/
theorem Delivers.of_wanted {n : ℕ} {want rest out rest' : List α} (h : Delivers n (want ++ rest) out rest')
    (hn : want.length = n) : ∃ more, want = out ++ more ∧ rest' = more ++ rest := by
  rcases List.append_eq_append_iff.mp h.split with ⟨more,hwant,hrest⟩ | ⟨extra,hout,hrest⟩
  · exact ⟨more,hwant,hrest⟩
  · have hlen : extra.length = 0 := by
      have := h.atMost
      rw [hout,List.length_append] at this
      omega
    obtain rfl := List.eq_nil_of_length_eq_zero hlen
    exact ⟨[],by simpa using hout.symm,by simpa using hrest.symm⟩

/-- The loop stops early only at the end of the stream. -/
theorem readLoop_split {rounds n : ℕ} {rd : Reader α} {want rest : List α} (hrounds : n ≤ rounds)
    (hn : want.length = n) (hpending : rd.pending = want ++ rest) :
    ∃ rd', readLoop rounds n rd = (want,rd') ∧ rd'.pending = rest := by
  induction rounds generalizing n rd want with
  | zero =>
    obtain rfl : want = [] := List.eq_nil_of_length_eq_zero (by omega)
    exact ⟨rd,rfl,hpending⟩
  | succ rounds ih =>
    rw [readLoop]
    split
    · obtain rfl : want = [] := List.eq_nil_of_length_eq_zero (by omega)
      exact ⟨rd,rfl,hpending⟩
    · rename_i hne
      have h := read_delivers (Nat.pos_of_ne_zero hne) rd
      rw [hpending] at h
      have hout : (rd.read n).1 ≠ [] := by
        apply h.some
        apply List.append_ne_nil_of_left_ne_nil
        rintro rfl
        exact hne hn.symm
      have hpos : 0 < (rd.read n).1.length := List.length_pos_iff.mpr hout
      obtain ⟨more,hwant,hrest'⟩ := h.of_wanted hn
      have hmore : more.length = n - (rd.read n).1.length := by
        have hlen := congrArg List.length hwant
        rw [List.length_append] at hlen
        omega
      obtain ⟨rd',hloop,hrest⟩ := ih (by omega) hmore hrest'
      refine ⟨rd',?_,hrest⟩
      simp only [hout,List.isEmpty_iff,if_false,hloop]
      rw [← hwant]

/-- A full read delivers exactly the next elements. -/
theorem readFull_split {n : ℕ} {rd : Reader α} {want rest : List α} (hn : want.length = n)
    (hpending : rd.pending = want ++ rest) :
    ∃ rd', rd.readFull n = .ok (want,rd') ∧ rd'.pending = rest := by
  obtain ⟨rd',hloop,hrest⟩ := readLoop_split (Nat.le_refl n) hn hpending
  exact ⟨rd',by simp [readFull,hloop,hn],hrest⟩

theorem readLoop_pending (rounds n : ℕ) (rd : Reader α) :
    (readLoop rounds n rd).1 ++ (readLoop rounds n rd).2.pending = rd.pending := by
  induction rounds generalizing n rd with
  | zero => rfl
  | succ rounds ih =>
    rw [readLoop]
    split
    · rfl
    · rename_i hne
      have h := read_delivers (Nat.pos_of_ne_zero hne) rd
      dsimp only
      split
      · rename_i hout
        rw [← h.split,List.isEmpty_iff.mp hout]
      · rw [List.append_assoc,ih,h.split]

/-- What a full read returns was next. -/
theorem readFull_eq_ok {n : ℕ} {rd rd' : Reader α} {out : List α} (h : rd.readFull n = .ok (out,rd')) :
    out.length = n ∧ rd.pending = out ++ rd'.pending := by
  have hpending := readLoop_pending n n rd
  unfold readFull at h
  dsimp only at h
  split at h
  · rename_i hlen
    cases h
    exact ⟨hlen,hpending.symm⟩
  · split at h <;> cases h

/-- A full read fails if less than it asks for is left. -/
theorem readFull_short {n : ℕ} {rd : Reader α} (hshort : rd.pending.length < n) :
    ∃ e, rd.readFull n = .error e := by
  cases h : rd.readFull n with
  | error e => exact ⟨e,rfl⟩
  | ok r =>
    obtain ⟨hlen,hpending⟩ := readFull_eq_ok h
    rw [hpending,List.length_append] at hshort
    omega

theorem readFull_eof {n : ℕ} {rd : Reader α} (hn : 0 < n) (hpending : rd.pending = []) :
    rd.readFull n = .error .eof := by
  have h := read_delivers hn rd
  have hout : (rd.read n).1 = [] := (List.append_eq_nil_iff.mp (h.split.trans hpending)).1
  obtain ⟨k,rfl⟩ : ∃ k, n = k+1 := ⟨n-1,by omega⟩
  simp [readFull,readLoop,hout]

end Reader

end DhtOcean.Foundation
