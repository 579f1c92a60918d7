import Mathlib.Order.Defs.Unbundled
import DhtOcean.Foundation.Bytes

/-! # Replacing a file by way of a temporary one

The text of a value is written to a temporary file, some octets at a time, and one
rename then puts it in the place of the file. The process that does so may end at
any point. The file is the whole text of the value last put in place, or absent.
-/
namespace DhtOcean.Foundation

namespace Saver

/-- How far the replacement is. The value under way is the one that `save` found. -/
inductive Stage (A : Type*)
  | idle
  | created
  | writing (value : A) (left : Bytes)
  | written (value : A)
  | closed (value : A)
  | renamed

inductive Call
  | create
  | save
  | write (n : ℕ)
  | finish
  | close
  | rename
  deriving DecidableEq, Repr

variable {A : Type*}

def Stage.value : Stage A → Option A
  | .writing value _ => some value
  | .written value => some value
  | .closed value => some value
  | _ => none

end Saver

open Saver

/-- `stored` records the value last put in place. -/
structure Saver (A : Type*) where
  file : Option Bytes
  tmp : Option Bytes
  stage : Stage A
  stored : Option A

namespace Saver
variable {A : Type*} (encode : A → Bytes)

def call (value : A) (s : Saver A) : Call → Option (Saver A)
  | .create => match s.stage with
    | .idle => some { s with tmp := some [], stage := .created }
    | _ => none
  | .save => match s.stage with
    | .created => some { s with stage := .writing value (encode value) }
    | _ => none
  | .write n => match s.stage with
    | .writing saved left => some { s with
        tmp := s.tmp.map (· ++ left.take n)
        stage := .writing saved (left.drop n) }
    | _ => none
  | .finish => match s.stage with
    | .writing saved [] => some { s with stage := .written saved }
    | _ => none
  | .close => match s.stage with
    | .written saved => some { s with stage := .closed saved }
    | _ => none
  | .rename => match s.stage with
    | .closed saved => some { file := s.tmp, tmp := none, stage := .renamed, stored := some saved }
    | _ => none

/-- The process ends; the files stay as they are. -/
def abandon (s : Saver A) : Saver A := { s with stage := .idle }

/-- What the temporary file holds in the course of a replacement. -/
def Stage.Wrote (tmp : Option Bytes) : Stage A → Prop
  | .created => tmp = some []
  | .writing value left => ∃ front, tmp = some front ∧ front ++ left = encode value
  | .written value => tmp = some (encode value)
  | .closed value => tmp = some (encode value)
  | _ => True

/-- The file is whole, and the temporary file will be. -/
structure Whole (s : Saver A) : Prop where
  file : s.file = s.stored.map encode
  tmp : s.stage.Wrote encode s.tmp

/-- One call, by what becomes of the value in place and of the one under way. -/
inductive Moved (value : A) (s t : Saver A) : Prop
  | begun (hstored : t.stored = s.stored) (hvalue : t.stage.value = some value)
  | kept (hstored : t.stored = s.stored) (hvalue : t.stage.value = s.stage.value) (hopen : t.stage ≠ .renamed)
  | replaced (saved : A) (hsaved : s.stage.value = some saved) (hstored : t.stored = some saved)
      (hvalue : t.stage.value = none)

variable {encode} {value : A} {s t : Saver A} {c : Call}

theorem Whole.call (hs : s.Whole encode) (h : s.call encode value c = some t) : t.Whole encode ∧ Moved value s t := by
  obtain ⟨file,tmp,stage,stored⟩ := s
  obtain ⟨hfile,htmp⟩ := hs
  cases c with
  | create =>
    cases stage with
    | idle =>
      cases h
      exact ⟨⟨hfile,rfl⟩,.kept rfl rfl nofun⟩
    | _ => cases h
  | save =>
    cases stage with
    | created =>
      cases h
      exact ⟨⟨hfile,[],htmp,rfl⟩,.begun rfl rfl⟩
    | _ => cases h
  | write n =>
    cases stage with
    | writing saved left =>
      cases h
      obtain ⟨front,rfl,hfront⟩ := htmp
      refine ⟨⟨hfile,front ++ left.take n,rfl,?_⟩,.kept rfl rfl nofun⟩
      rw [List.append_assoc,List.take_append_drop,hfront]
    | _ => cases h
  | finish =>
    cases stage with
    | writing saved left =>
      cases left with
      | nil =>
        cases h
        obtain ⟨front,rfl,hfront⟩ := htmp
        rw [List.append_nil] at hfront
        exact ⟨⟨hfile,congrArg some hfront⟩,.kept rfl rfl nofun⟩
      | cons octet left => cases h
    | _ => cases h
  | close =>
    cases stage with
    | written saved =>
      cases h
      exact ⟨⟨hfile,htmp⟩,.kept rfl rfl nofun⟩
    | _ => cases h
  | rename =>
    cases stage with
    | closed saved =>
      cases h
      exact ⟨⟨htmp,trivial⟩,.replaced saved rfl rfl rfl⟩
    | _ => cases h

theorem Whole.abandon (hs : s.Whole encode) : s.abandon.Whole encode := ⟨hs.file,trivial⟩

/-- A property of the value in place and of the one under way. -/
structure All (p : A → Prop) (s : Saver A) : Prop where
  stored : ∀ v ∈ s.stored, p v
  underway : ∀ v ∈ s.stage.value, p v

theorem All.moved {p : A → Prop} (hs : s.All p) (hvalue : p value) (h : Moved value s t) : t.All p := by
  cases h with
  | begun hstored hvalue' =>
    refine ⟨hstored ▸ hs.stored,?_⟩
    intro v hv
    rw [hvalue'] at hv
    cases hv
    exact hvalue
  | kept hstored hvalue' hopen => exact ⟨hstored ▸ hs.stored,hvalue' ▸ hs.underway⟩
  | replaced saved hsaved hstored hvalue' =>
    refine ⟨?_,?_⟩
    · intro v hv
      rw [hstored] at hv
      cases hv
      exact hs.underway saved hsaved
    · intro v hv
      rw [hvalue'] at hv
      cases hv

theorem All.mono {p q : A → Prop} (hs : s.All p) (h : ∀ v, p v → q v) : s.All q :=
  ⟨fun v hv => h v (hs.stored v hv),fun v hv => h v (hs.underway v hv)⟩

/-- The value in place, the one under way and the present one, in this order. -/
structure Ordered (r : A → A → Prop) (value : A) (s : Saver A) : Prop where
  stored : ∀ v ∈ s.stored, r v value ∧ ∀ w ∈ s.stage.value, r v w
  underway : ∀ w ∈ s.stage.value, r w value

namespace Ordered
variable {r : A → A → Prop}

theorem moved [Std.Refl r] (hs : Ordered r value s) (h : Moved value s t) : Ordered r value t := by
  cases h with
  | begun hstored hvalue =>
    refine ⟨?_,?_⟩
    · intro v hv
      have hle := (hs.stored v (hstored ▸ hv)).1
      refine ⟨hle,?_⟩
      intro w hw
      rw [hvalue] at hw
      cases hw
      exact hle
    · intro w hw
      rw [hvalue] at hw
      cases hw
      exact Std.Refl.refl value
  | kept hstored hvalue hopen => exact ⟨hstored ▸ hvalue ▸ hs.stored,hvalue ▸ hs.underway⟩
  | replaced saved hsaved hstored hvalue =>
    refine ⟨?_,?_⟩
    · intro v hv
      rw [hstored] at hv
      cases hv
      refine ⟨hs.underway saved hsaved,?_⟩
      intro w hw
      rw [hvalue] at hw
      cases hw
    · intro w hw
      rw [hvalue] at hw
      cases hw

theorem later [IsTrans A r] {value' : A} (hs : Ordered r value s) (h : r value value') : Ordered r value' s :=
  ⟨fun v hv => ⟨IsTrans.trans _ _ _ (hs.stored v hv).1 h,(hs.stored v hv).2⟩,fun w hw => IsTrans.trans _ _ _ (hs.underway w hw) h⟩

end Ordered

end Saver

end DhtOcean.Foundation
