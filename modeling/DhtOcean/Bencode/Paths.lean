import DhtOcean.Bencode.Value

/-! # Dotted paths into a dictionary

One walk serves every getter. It stops at a value that is not a map, and takes
it for the result if only the last component of the path is left.
-/
namespace DhtOcean.Bencode
open Foundation
variable {B : Type}

/-- The loop of the source over the components that remain. -/
def walk : Value B → List Bytes → Option (Value B)
  | m, [] => some m
  | .map dict, part :: parts =>
    match dict.lookup part with
    | none => none
    | some m => walk m parts
  | m, [_] => some m
  | _, _ :: _ :: _ => none

def getByPath (dict : Dict B) (path : Bytes) : Option (Value B) :=
  walk (.map dict) (path.splitOn '.'.toUInt8)

def checkMapPath (dict : Dict B) (path : Bytes) : Bool := (getByPath dict path).isSome

def getInt (dict : Dict B) (key : Bytes) : Int64 × Bool :=
  match getByPath dict key with
  | some (.int n) => (n,true)
  | _ => (0,false)

/-- The conversion to a string copies the octets of the slice. -/
def getString (contents : B → Bytes) (dict : Dict B) (key : Bytes) : Bytes × Bool :=
  match getByPath dict key with
  | some (.bytes b) => (contents b,true)
  | _ => ([],false)

def getList (dict : Dict B) (key : Bytes) : List (Value B) × Bool :=
  match getByPath dict key with
  | some (.list xs) => (xs,true)
  | _ => ([],false)

/-- `none` is the nil slice. -/
def mustGetBytes (dict : Dict B) (key : Bytes) : Option B :=
  match getByPath dict key with
  | some (.bytes b) => some b
  | _ => none

theorem getByPath_one {dict : Dict B} {path : Bytes} (h : path.splitOn '.'.toUInt8 = [path]) :
    getByPath dict path = dict.lookup path := by
  rw [getByPath,h,walk]
  cases dict.lookup path <;> rfl

/-- What a path of two components finds: a value that is not a map stands for its second component. -/
def nested (dict : Dict B) (first second : Bytes) : Option (Value B) :=
  match dict.lookup first with
  | none => none
  | some (.map m) => m.lookup second
  | some v => some v

theorem getByPath_two {dict : Dict B} {path first second : Bytes}
    (h : path.splitOn '.'.toUInt8 = [first,second]) : getByPath dict path = nested dict first second := by
  rw [getByPath,h,walk,nested]
  cases dict.lookup first with
  | none => rfl
  | some v =>
    cases v with
    | map m =>
      dsimp only
      rw [walk]
      cases m.lookup second <;> rfl
    | _ => rfl

theorem getInt_of_getByPath {dict : Dict B} {path : Bytes} {n : Int64}
    (h : getByPath dict path = some (.int n)) : getInt dict path = (n,true) := by
  rw [getInt,h]

theorem nested_of_map {dict m : Dict B} {first : Bytes} (second : Bytes)
    (h : dict.lookup first = some (.map m)) : nested dict first second = m.lookup second := by
  rw [nested,h]

theorem nested_eq_bytes {dict : Dict B} {first second : Bytes} {b : B} :
    nested dict first second = some (.bytes b) ↔
      (∃ m, dict.lookup first = some (.map m) ∧ m.lookup second = some (.bytes b)) ∨
      dict.lookup first = some (.bytes b) := by
  unfold nested
  cases dict.lookup first with
  | none => simp
  | some v => cases v <;> simp

theorem mustGetBytes_eq_some {dict : Dict B} {key : Bytes} {b : B} :
    mustGetBytes dict key = some b ↔ getByPath dict key = some (.bytes b) := by
  unfold mustGetBytes
  split
  · simp_all
  · rename_i hne
    constructor
    · intro h
      cases h
    · intro h
      exact absurd h (hne b)

section Nested

/-- One lookup for each component; a component that is missing, or that has no map to be looked up
in, ends it without a result. -/
def descend : Value B → List Bytes → Option (Value B)
  | v, [] => some v
  | .map dict, part :: parts => (dict.lookup part).bind (descend · parts)
  | _, _ :: _ => none

def pathParts (path : Bytes) : List Bytes := path.splitOn '.'.toUInt8

/-- What stands at the path without its last component, if anything, is a map. -/
def FrontIsMap (dict : Dict B) (path : Bytes) : Prop :=
  ∀ v, descend (.map dict) (pathParts path).dropLast = some v → ∃ m, v = .map m

/-- The walk and all that is built on it answer for the value at the path itself. -/
structure LooksUp (contents : B → Bytes) (dict : Dict B) (path : Bytes) : Prop where
  value : getByPath dict path = descend (.map dict) (pathParts path)
  check : checkMapPath dict path = true ↔ (descend (.map dict) (pathParts path)).isSome
  int : ∀ n, getInt dict path = (n,true) → descend (.map dict) (pathParts path) = some (.int n)
  string : ∀ s, getString contents dict path = (s,true) →
    ∃ b, descend (.map dict) (pathParts path) = some (.bytes b) ∧ contents b = s
  list : ∀ xs, getList dict path = (xs,true) → descend (.map dict) (pathParts path) = some (.list xs)
  bytes : ∀ b, mustGetBytes dict path = some b → descend (.map dict) (pathParts path) = some (.bytes b)

/-- The walk is a nested lookup, or it stops at a value in front of the last component. -/
theorem walk_cases (v : Value B) {parts : List Bytes} (hne : parts ≠ []) :
    (walk v parts = descend v parts ∧ ∀ u, descend v parts.dropLast = some u → ∃ m, u = .map m) ∨
    ∃ u, (∀ m, u ≠ .map m) ∧ descend v parts.dropLast = some u ∧ walk v parts = some u ∧ descend v parts = none := by
  induction parts generalizing v with
  | nil => exact absurd rfl hne
  | cons part parts ih =>
    cases parts with
    | nil =>
      cases v with
      | map m =>
        refine .inl ⟨?_,?_⟩
        · rw [walk,descend]
          cases m.lookup part <;> rfl
        · rintro u ⟨⟩
          exact ⟨m,rfl⟩
      | _ => exact .inr ⟨_,by simp,rfl,rfl,rfl⟩
    | cons next parts =>
      cases v with
      | map m =>
        rw [walk,descend,List.dropLast_cons_of_ne_nil (List.cons_ne_nil _ _),descend]
        cases m.lookup part with
        | none => exact .inl ⟨rfl,by simp⟩
        | some w => exact ih w (List.cons_ne_nil _ _)
      | _ => exact .inl ⟨rfl,by simp [descend]⟩

theorem frontIsMap_iff {dict : Dict B} {path : Bytes} :
    FrontIsMap dict path ↔ getByPath dict path = descend (.map dict) (pathParts path) := by
  rcases walk_cases (.map dict) (List.splitOn_ne_nil '.'.toUInt8 path) with ⟨hwalk,hfront⟩ | ⟨u,hu,hfront,hwalk,hnone⟩
  · exact iff_of_true hfront hwalk
  · apply iff_of_false
    · intro h
      obtain ⟨m,rfl⟩ := h u hfront
      exact hu m rfl
    · intro h
      cases hwalk.symm.trans (h.trans hnone)

/-- A path is looked up component by component exactly when no other value than a map stands in
front of its last component. -/
theorem looksUp_iff_frontIsMap (contents : B → Bytes) (dict : Dict B) (path : Bytes) :
    LooksUp contents dict path ↔ FrontIsMap dict path := by
  rw [frontIsMap_iff]
  constructor
  · exact LooksUp.value
  · intro h
    refine ⟨h,by rw [checkMapPath,h],?_,?_,?_,?_⟩
    · intro n hn
      rw [getInt,h] at hn
      split at hn
      · cases hn
        assumption
      · cases hn
    · intro s hs
      rw [getString,h] at hs
      split at hs
      · rename_i b hb
        cases hs
        exact ⟨b,hb,rfl⟩
      · cases hs
    · intro xs hxs
      rw [getList,h] at hxs
      split at hxs
      · cases hxs
        assumption
      · cases hxs
    · intro b hb
      rw [mustGetBytes_eq_some,h] at hb
      exact hb

/-- The integer under `a` passes for the value at `a.b`. -/
theorem integer_at_front_returned :
    getInt [(ascii "a",(.int 5 : Value Bytes))] (ascii "a.b") = (5,true) ∧
    checkMapPath [(ascii "a",(.int 5 : Value Bytes))] (ascii "a.b") = true ∧
    pathParts (ascii "a.b") = [ascii "a",ascii "b"] ∧
    (descend (.map [(ascii "a",(.int 5 : Value Bytes))]) [ascii "a",ascii "b"]).isNone ∧
    ¬ LooksUp id [(ascii "a",(.int 5 : Value Bytes))] (ascii "a.b") := by
  have hint : getInt [(ascii "a",(.int 5 : Value Bytes))] (ascii "a.b") = (5,true) := by decide +kernel
  have hparts : pathParts (ascii "a.b") = [ascii "a",ascii "b"] := by decide +kernel
  refine ⟨hint,by decide +kernel,hparts,by decide +kernel,?_⟩
  intro h
  have hvalue := h.int 5 hint
  rw [hparts] at hvalue
  cases hvalue

end Nested

end DhtOcean.Bencode
