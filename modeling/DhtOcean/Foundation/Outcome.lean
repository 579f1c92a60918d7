import Mathlib.Logic.Basic

/-! # Outcomes of a call

A call returns a value, returns an error, panics, or never returns. Panics are
kept apart from errors because only a deferred recovery can intercept them, and
a blocked or diverging call is kept apart from both.
-/
namespace DhtOcean.Foundation

theorem exceptBind_eq_ok {ε α β : Type} {x : Except ε α} {f : α → Except ε β} {b : β} :
    (x >>= f) = .ok b ↔ ∃ a, x = .ok a ∧ f a = .ok b := by
  cases x <;> simp [Bind.bind,Except.bind]

/-- The runtime failures that abort a call. -/
inductive Panic
  | typeAssertion
  | nilDereference
  | indexOutOfRange
  | sliceBounds
  | makeSlice
  deriving DecidableEq, Repr

/-- The four ways in which a call can end. -/
inductive Outcome (ε α : Type)
  | ok (a : α)
  | error (e : ε)
  | panic (p : Panic)
  | hang
  deriving DecidableEq, Repr

namespace Outcome
variable {ε ε' α β : Type}

def bind (x : Outcome ε α) (f : α → Outcome ε β) : Outcome ε β :=
  match x with
  | ok a => f a
  | error e => error e
  | panic p => panic p
  | hang => hang

instance monad : Monad (Outcome ε) where
  pure := ok
  bind := bind

@[simp] theorem pure_eq (a : α) : (pure a : Outcome ε α) = ok a := rfl
@[simp] theorem ok_bind (a : α) (f : α → Outcome ε β) : (ok a >>= f) = f a := rfl
@[simp] theorem error_bind (e : ε) (f : α → Outcome ε β) : ((error e : Outcome ε α) >>= f) = error e := rfl
@[simp] theorem panic_bind (p : Panic) (f : α → Outcome ε β) : ((panic p : Outcome ε α) >>= f) = panic p := rfl
@[simp] theorem hang_bind (f : α → Outcome ε β) : ((hang : Outcome ε α) >>= f) = hang := rfl

theorem bind_eq_ok {x : Outcome ε α} {f : α → Outcome ε β} {b : β} :
    (x >>= f) = ok b ↔ ∃ a, x = ok a ∧ f a = ok b := by
  cases x <;> simp

theorem bind_eq_panic {x : Outcome ε α} {f : α → Outcome ε β} {p : Panic} :
    (x >>= f) = panic p ↔ x = panic p ∨ ∃ a, x = ok a ∧ f a = panic p := by
  cases x <;> simp

theorem bind_eq_hang {x : Outcome ε α} {f : α → Outcome ε β} :
    (x >>= f) = hang ↔ x = hang ∨ ∃ a, x = ok a ∧ f a = hang := by
  cases x <;> simp

/-- A sequence of calls comes to an end if each of them does. -/
theorem bind_ne_hang {x : Outcome ε α} {f : α → Outcome ε β} (hx : x ≠ hang) (hf : ∀ a, f a ≠ hang) :
    (x >>= f) ≠ hang := by
  rw [Ne,bind_eq_hang]
  rintro (h | ⟨a,-,h⟩)
  · exact hx h
  · exact hf a h

/-- The call hands control back to its caller with a value or an error. -/
def Returns (x : Outcome ε α) : Prop := (∃ a, x = ok a) ∨ ∃ e, x = error e

theorem returns_bind {x : Outcome ε α} {f : α → Outcome ε β} (hx : x.Returns) (hf : ∀ a, (f a).Returns) :
    (x >>= f).Returns := by
  rcases hx with ⟨a,rfl⟩ | ⟨e,rfl⟩
  · exact hf a
  · exact .inr ⟨e,rfl⟩

def Panics (x : Outcome ε α) : Prop := ∃ p, x = panic p

theorem returns_iff {x : Outcome ε α} : x.Returns ↔ ¬ x.Panics ∧ x ≠ hang := by
  cases x <;> simp [Returns,Panics]

theorem bind_panics {x : Outcome ε α} {f : α → Outcome ε β} :
    (x >>= f).Panics ↔ x.Panics ∨ ∃ a, x = ok a ∧ (f a).Panics := by
  cases x <;> simp [Panics]

@[simp] theorem ok_not_panics (a : α) : ¬ (ok a : Outcome ε α).Panics := by simp [Panics]
@[simp] theorem error_not_panics (e : ε) : ¬ (error e : Outcome ε α).Panics := by simp [Panics]
@[simp] theorem panic_panics (p : Panic) : (panic p : Outcome ε α).Panics := ⟨p,rfl⟩

/-- The same call under a caller's type of errors. -/
def mapError (f : ε → ε') (x : Outcome ε α) : Outcome ε' α :=
  match x with
  | ok a => ok a
  | error e => error (f e)
  | panic p => panic p
  | hang => hang

@[simp] theorem mapError_ok (f : ε → ε') (a : α) : (ok a : Outcome ε α).mapError f = ok a := rfl

theorem mapError_eq_ok {f : ε → ε'} {x : Outcome ε α} {a : α} : x.mapError f = ok a ↔ x = ok a := by
  cases x <;> simp [mapError]

theorem mapError_eq_hang {f : ε → ε'} {x : Outcome ε α} : x.mapError f = hang ↔ x = hang := by
  cases x <;> simp [mapError]

def ofExcept : Except ε α → Outcome ε α
  | .ok a => ok a
  | .error e => error e

theorem ofExcept_eq_ok {x : Except ε α} {a : α} : ofExcept x = ok a ↔ x = .ok a := by
  cases x <;> simp [ofExcept]

/-- Appending steps that always return changes nothing about panics. -/
theorem bind_panics_of_not {x : Outcome ε α} {f : α → Outcome ε β} (h : ∀ a, ¬ (f a).Panics) :
    (x >>= f).Panics ↔ x.Panics := by
  rw [bind_panics]
  constructor
  · rintro (hx | ⟨a,-,ha⟩)
    · exact hx
    · exact absurd ha (h a)
  · exact Or.inl

/-- The call returned a value that passes the test. -/
def okAnd (x : Outcome ε α) (test : α → Bool) : Bool :=
  match x with
  | ok a => test a
  | _ => false

instance decidablePanics (x : Outcome ε α) : Decidable x.Panics :=
  match x with
  | panic p => .isTrue ⟨p,rfl⟩
  | ok a => .isFalse (ok_not_panics a)
  | error e => .isFalse (error_not_panics e)
  | hang => .isFalse (fun h => by obtain ⟨_,h⟩ := h; cases h)

end Outcome

end DhtOcean.Foundation
