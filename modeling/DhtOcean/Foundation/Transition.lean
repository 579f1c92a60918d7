import Mathlib.Logic.Basic

/-! # Reachable states of a guarded transition function

A system is a partial transition function on labelled steps. A guard restricts
the steps that a run may take, so that a law that holds only of some runs is a
law of every state reached under its guard.
-/
namespace DhtOcean.Foundation
variable {S L : Type*}

/-- The states reached from `s₀` by enabled steps that all meet the guard. -/
inductive Reach (step : S → L → Option S) (guard : S → L → Prop) (s₀ : S) : S → Prop
  | start : Reach step guard s₀ s₀
  | next {s t : S} {l : L} : Reach step guard s₀ s → guard s l → step s l = some t →
      Reach step guard s₀ t

/-- A run that is free to take every enabled step. -/
abbrev Free (S L : Type*) : S → L → Prop := fun _ _ => True

/-- The state behind a list of steps, if all of them are enabled. -/
def run (step : S → L → Option S) (s : S) : List L → Option S
  | [] => some s
  | l :: ls => (step s l).bind (run step · ls)

theorem run_append (step : S → L → Option S) (s : S) (ls ls' : List L) :
    run step s (ls ++ ls') = (run step s ls).bind (run step · ls') := by
  induction ls generalizing s with
  | nil => rfl
  | cons l ls ih =>
    rw [List.cons_append,run,run,Option.bind_assoc]
    congr 1
    funext t
    exact ih t

/-- A run is made of a run and the rest of it. -/
theorem run_append_eq_some {step : S → L → Option S} {s t : S} {ls ls' : List L} :
    run step s (ls ++ ls') = some t ↔ ∃ u, run step s ls = some u ∧ run step u ls' = some t := by
  rw [run_append,Option.bind_eq_some_iff]

/-- Two systems whose states are related, each step of the one being enabled together with a few steps
of the other and leading to related states, run in step with each other. -/
theorem run_rel {S' L' : Type*} {step : S → L → Option S} {step' : S' → L' → Option S'} {R : S → S' → Prop}
    {steps : L → List L'} (hstep : ∀ {s s'} l, R s s' → Option.Rel R (step s l) (run step' s' (steps l)))
    {s : S} {s' : S'} (hs : R s s') (ls : List L) :
    Option.Rel R (run step s ls) (run step' s' (ls.flatMap steps)) := by
  induction ls generalizing s s' with
  | nil => exact .some hs
  | cons l ls ih =>
    rw [List.flatMap_cons,run_append,run]
    have h := hstep l hs
    revert h
    generalize step s l = o
    generalize run step' s' (steps l) = o'
    rintro (ht | _)
    · exact ih ht
    · exact .none

/-- The guard holds at each step of a run, as far as the steps are enabled. -/
def Guarded (step : S → L → Option S) (guard : S → L → Prop) : S → List L → Prop
  | _, [] => True
  | s, l :: ls => guard s l ∧ ∀ t ∈ step s l, Guarded step guard t ls

instance decidableGuarded (step : S → L → Option S) (guard : S → L → Prop) [∀ s l, Decidable (guard s l)] :
    ∀ s ls, Decidable (Guarded step guard s ls)
  | _, [] => isTrue trivial
  | s, l :: ls =>
    have := fun t => decidableGuarded step guard t ls
    inferInstanceAs (Decidable (guard s l ∧ ∀ t ∈ step s l, Guarded step guard t ls))

theorem guarded_free (step : S → L → Option S) (s : S) (ls : List L) : Guarded step (Free S L) s ls := by
  induction ls generalizing s with
  | nil => trivial
  | cons l ls ih => exact ⟨trivial,fun t _ => ih t⟩

theorem Guarded.mono {step : S → L → Option S} {guard guard' : S → L → Prop} (hg : ∀ {s l}, guard s l → guard' s l)
    {s : S} {ls : List L} (h : Guarded step guard s ls) : Guarded step guard' s ls := by
  induction ls generalizing s with
  | nil => trivial
  | cons l ls ih => exact ⟨hg h.1,fun t ht => ih (h.2 t ht)⟩

/-- The guard holds along both parts of a run. -/
theorem Guarded.of_append {step : S → L → Option S} {guard : S → L → Prop} {s : S} {ls ls' : List L}
    (h : Guarded step guard s (ls ++ ls')) :
    Guarded step guard s ls ∧ ∀ t, run step s ls = some t → Guarded step guard t ls' := by
  induction ls generalizing s with
  | nil =>
    refine ⟨trivial,?_⟩
    rintro t ⟨⟩
    exact h
  | cons l ls ih =>
    refine ⟨⟨h.1,fun u hu => (ih (h.2 u hu)).1⟩,?_⟩
    intro t ht
    obtain ⟨u,hu,ht⟩ := Option.bind_eq_some_iff.mp ht
    exact (ih (h.2 u hu)).2 t ht

/-- The state at the start, and each one that the steps lead to, has the property. -/
def Throughout (step : S → L → Option S) (P : S → Prop) : S → List L → Prop
  | s, [] => P s
  | s, l :: ls => P s ∧ ∀ t ∈ step s l, Throughout step P t ls

/-- If steps keep an invariant exactly as far as they meet the guard, the guard says which runs have
the property throughout. -/
theorem throughout_iff_guarded {step : S → L → Option S} {guard room : S → L → Prop} {I P : S → Prop}
    (hsafe : ∀ {s}, I s → P s) (hkeep : ∀ {s l t}, I s → room s l → guard s l → step s l = some t → I t)
    (hneed : ∀ {s l t}, I s → room s l → step s l = some t → P t → guard s l)
    {s t : S} {ls : List L} (hs : I s) (hrun : run step s ls = some t) (hroom : Guarded step room s ls) :
    Throughout step P s ls ↔ Guarded step guard s ls := by
  induction ls generalizing s with
  | nil => exact iff_of_true (hsafe hs) trivial
  | cons l ls ih =>
    obtain ⟨u,hu,hrest⟩ := Option.bind_eq_some_iff.mp hrun
    constructor
    · rintro ⟨-,h⟩
      have hP : P u := by
        cases ls with
        | nil => exact h u hu
        | cons l' ls => exact (h u hu).1
      have hg := hneed hs hroom.1 hu hP
      refine ⟨hg,?_⟩
      intro v hv
      cases hu.symm.trans hv
      exact (ih (hkeep hs hroom.1 hg hu) hrest (hroom.2 u hu)).mp (h u hu)
    · rintro ⟨hg,h⟩
      refine ⟨hsafe hs,?_⟩
      intro v hv
      cases hu.symm.trans hv
      exact (ih (hkeep hs hroom.1 hg hu) hrest (hroom.2 u hu)).mpr (h u hu)

namespace Reach
variable {step : S → L → Option S} {guard : S → L → Prop} {s₀ s t : S}

/-- What holds initially and is kept by every permitted step holds throughout. -/
theorem invariant {P : S → Prop} (hs : Reach step guard s₀ s) (h₀ : P s₀)
    (hstep : ∀ {s l t}, P s → guard s l → step s l = some t → P t) : P s := by
  induction hs with
  | start => exact h₀
  | next _ hg he ih => exact hstep ih hg he

theorem trans (hs : Reach step guard s₀ s) (ht : Reach step guard s t) : Reach step guard s₀ t := by
  induction ht with
  | start => exact hs
  | next _ hl he ih => exact .next ih hl he

/-- A weaker guard permits more. -/
theorem mono {guard' : S → L → Prop} (hg : ∀ {s l}, guard s l → guard' s l) (hs : Reach step guard s₀ s) :
    Reach step guard' s₀ s := by
  induction hs with
  | start => exact .start
  | next _ hl he ih => exact .next ih (hg hl) he

theorem of_guarded (ls : List L) (h : run step s ls = some t) (hg : Guarded step guard s ls) :
    Reach step guard s t := by
  induction ls generalizing s with
  | nil =>
    cases h
    exact .start
  | cons l ls ih =>
    obtain ⟨u,hu,ht⟩ := Option.bind_eq_some_iff.mp h
    exact (Reach.next .start hg.1 hu).trans (ih ht (hg.2 u hu))

theorem of_run (ls : List L) (h : run step s ls = some t) : Reach step (Free S L) s t :=
  of_guarded ls h (guarded_free step s ls)

end Reach

end DhtOcean.Foundation
