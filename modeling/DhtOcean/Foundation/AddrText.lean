import DhtOcean.Foundation.Decimal
import DhtOcean.Foundation.Hex
import DhtOcean.Foundation.Net
import Mathlib.Data.List.TakeWhile

/-! # Network addresses as text

An IPv4 address is four decimal numbers between dots, an IPv6 address is eight
hexadecimal groups between colons with its longest run of zeros left out. What is
written is read back. Zones are left out.
-/
namespace DhtOcean.Foundation

def dot : UInt8 := '.'.toUInt8
def colon : UInt8 := ':'.toUInt8
def openBracket : UInt8 := '['.toUInt8
def closeBracket : UInt8 := ']'.toUInt8
def percent : UInt8 := '%'.toUInt8

/-- Nothing but the joined texts and the separator is in a joined text. -/
theorem mem_intercalate {sep b : UInt8} {ts : List Bytes} (hb : b ∈ [sep].intercalate ts) :
    b = sep ∨ ∃ t ∈ ts, b ∈ t := by
  induction ts with
  | nil => cases hb
  | cons t ts ih =>
    cases ts with
    | nil =>
      rw [List.intercalate_singleton] at hb
      exact .inr ⟨t,List.mem_cons_self,hb⟩
    | cons t' ts =>
      rw [List.intercalate_cons_cons,List.append_assoc] at hb
      rcases List.mem_append.mp hb with hb | hb
      · exact .inr ⟨t,List.mem_cons_self,hb⟩
      · rcases List.mem_cons.mp hb with rfl | hb
        · exact .inl rfl
        · rcases ih hb with rfl | ⟨u,hu,hb⟩
          · exact .inl rfl
          · exact .inr ⟨u,List.mem_cons_of_mem _ hu,hb⟩

theorem sep_mem_intercalate (sep : UInt8) (t t' : Bytes) (ts : List Bytes) :
    sep ∈ [sep].intercalate (t :: t' :: ts) := by
  rw [List.intercalate_cons_cons]
  simp

section IPv4

def format4 (octets : Bytes) : Bytes := [dot].intercalate (octets.map (fun o => formatNat o.toNat))

/-- A number up to 255 without leading zeros. -/
def parseOctet (s : Bytes) : Option UInt8 :=
  if s = [] ∨ s.any (fun b => !isDigit b) ∨ (1 < s.length ∧ s.head? = some (digit 0)) ∨ 255 < digitsValue 0 s then none
  else some (UInt8.ofNat (digitsValue 0 s))

def parse4 (s : Bytes) : Option Bytes := do
  let octets ← (s.splitOn dot).mapM parseOctet
  if octets.length = 4 then some octets else none

theorem parseOctet_formatNat : ∀ n < 256, parseOctet (formatNat n) = some (UInt8.ofNat n) := by
  decide +kernel

theorem dot_notMem_formatNat (n : ℕ) : dot ∉ formatNat n := by
  intro h
  exact absurd (formatNat_isDigit h) (by decide)

theorem parse4_format4 {octets : Bytes} (hlen : octets.length = 4) : parse4 (format4 octets) = some octets := by
  have hsplit : (format4 octets).splitOn dot = octets.map (fun o => formatNat o.toNat) := by
    apply List.splitOn_intercalate
    · intro t ht
      obtain ⟨o,-,rfl⟩ := List.mem_map.mp ht
      exact dot_notMem_formatNat _
    · rw [Ne,List.map_eq_nil_iff]
      rintro rfl
      cases hlen
  have hparts : (octets.map (fun o => formatNat o.toNat)).mapM parseOctet = some octets := by
    apply mapM_map_some
    intro o _
    rw [parseOctet_formatNat o.toNat o.toNat_lt,UInt8.ofNat_toNat]
  rw [parse4,hsplit,hparts]
  exact if_pos hlen

theorem mem_format4 {octets : Bytes} {b : UInt8} (hb : b ∈ format4 octets) : b = dot ∨ isDigit b = true := by
  rcases mem_intercalate hb with rfl | ⟨t,ht,hb⟩
  · exact .inl rfl
  · obtain ⟨o,-,rfl⟩ := List.mem_map.mp ht
    exact .inr (formatNat_isDigit hb)

theorem notMem_format4 {b : UInt8} (hdot : b ≠ dot) (hdigit : isDigit b = false) (octets : Bytes) : b ∉ format4 octets := by
  intro hb
  rcases mem_format4 hb with h | h
  · exact hdot h
  · rw [hdigit] at h
    cases h

end IPv4

section IPv6

/-- The hexadecimal digits of a group. -/
def groupDigits (g : ℕ) : List ℕ :=
  (if 4096 ≤ g then [g/4096] else []) ++ (if 256 ≤ g then [g/256%16] else []) ++ (if 16 ≤ g then [g/16%16] else []) ++
    [g%16]

def formatGroup (g : ℕ) : Bytes := (groupDigits g).map hexDigit

/-- One to four hexadecimal digits. -/
def parseGroup (s : Bytes) : Option ℕ :=
  if s = [] ∨ 4 < s.length then none
  else s.foldlM (fun acc c => (hexValue c).map (fun d => acc*16 + d.toNat)) 0

def joinGroups (gs : List ℕ) : Bytes := [colon].intercalate (gs.map formatGroup)

/-- How many zeros there are from the index on. -/
def runAt (gs : List ℕ) (i : ℕ) : ℕ := ((gs.drop i).takeWhile (· == 0)).length

/-- Start and end of the first longest run of at least two zeros. -/
def longestRun (gs : List ℕ) : Option (ℕ × ℕ) :=
  (List.range gs.length).foldl (fun best i =>
    if 2 ≤ runAt gs i ∧ best.elim 0 (fun b => b.2 - b.1) < runAt gs i then some (i,i + runAt gs i) else best) none

def format6 (gs : List ℕ) : Bytes :=
  match longestRun gs with
  | none => joinGroups gs
  | some (s,e) => joinGroups (gs.take s) ++ colon :: colon :: joinGroups (gs.drop e)

/-- The groups of an address, two octets each. -/
def groupsOf : Bytes → List ℕ
  | a :: b :: rest => beValue [a,b] :: groupsOf rest
  | _ => []

def octetsOf (gs : List ℕ) : Bytes := gs.flatMap (beBytes 2)

def hexGroups (s : Bytes) : Option (List ℕ) := if s = [] then some [] else (s.splitOn colon).mapM parseGroup

/-- The end of an address may be an IPv4 address in the place of two groups. -/
def tailGroups (s : Bytes) : Option (List ℕ) :=
  let parts := s.splitOn colon
  if (parts.getLastD []).contains dot then do
    let gs ← parts.dropLast.mapM parseGroup
    let octets ← parse4 (parts.getLastD [])
    return gs ++ groupsOf octets
  else hexGroups s

/-- The text in front of the first two colons in a row, and that behind them. -/
def cutEllipsis : Bytes → Option (Bytes × Bytes)
  | [] => none
  | b :: s =>
    match s with
    | [] => none
    | c :: r =>
      if b = colon ∧ c = colon then some ([],r)
      else (cutEllipsis s).map (fun lr => (b :: lr.1,lr.2))

/-- Two colons in a row stand for at least one group of zeros. -/
def parse6 (s : Bytes) : Option (List ℕ) :=
  match cutEllipsis s with
  | none => do
    let gs ← tailGroups s
    if gs.length = 8 then some gs else none
  | some (l,r) => do
    let ls ← hexGroups l
    let rs ← tailGroups r
    if ls.length + rs.length < 8 then some (ls ++ List.replicate (8 - ls.length - rs.length) 0 ++ rs) else none

theorem hexValue_hexDigit : ∀ n < 16, hexValue (hexDigit n) = some (UInt8.ofNat n) := by decide

theorem groupDigits_lt {g : ℕ} (hg : g < 65536) : ∀ d ∈ groupDigits g, d < 16 := by
  intro d hd
  simp only [groupDigits,List.mem_append,List.mem_ite_nil_right,List.mem_singleton] at hd
  omega

theorem foldlM_hexDigit {ds : List ℕ} (hds : ∀ d ∈ ds, d < 16) (acc : ℕ) :
    (ds.map hexDigit).foldlM (fun acc c => (hexValue c).map (fun d => acc*16 + d.toNat)) acc =
      some (ds.foldl (fun acc d => acc*16 + d) acc) := by
  induction ds generalizing acc with
  | nil => rfl
  | cons d ds ih =>
    have hd := hds d List.mem_cons_self
    have hval : (UInt8.ofNat d).toNat = d := UInt8.toNat_ofNat_of_lt' (show d < 256 by omega)
    rw [List.map_cons,List.foldlM_cons,hexValue_hexDigit d hd,List.foldl_cons]
    simp only [Option.map_some,Option.bind_eq_bind,Option.bind_some,hval]
    exact ih (fun x hx => hds x (List.mem_cons_of_mem _ hx)) _

theorem foldl_groupDigits {g : ℕ} (hg : g < 65536) : (groupDigits g).foldl (fun acc d => acc*16 + d) 0 = g := by
  unfold groupDigits
  split_ifs
  all_goals
    simp only [List.nil_append,List.cons_append,List.foldl_cons,List.foldl_nil]
    omega

theorem parseGroup_formatGroup {g : ℕ} (hg : g < 65536) : parseGroup (formatGroup g) = some g := by
  have hshape : ¬ (formatGroup g = [] ∨ 4 < (formatGroup g).length) := by
    unfold formatGroup groupDigits
    split_ifs <;> simp
  rw [parseGroup,if_neg hshape,formatGroup,foldlM_hexDigit (groupDigits_lt hg),foldl_groupDigits hg]

/-- None of the octets that separate parts of an address. -/
def Plain (b : UInt8) : Prop := b ≠ dot ∧ b ≠ colon ∧ b ≠ openBracket ∧ b ≠ closeBracket ∧ b ≠ percent

theorem plain_hexDigit : ∀ n < 16, Plain (hexDigit n) := by
  unfold Plain
  decide

theorem plain_formatGroup {g : ℕ} (hg : g < 65536) {b : UInt8} (hb : b ∈ formatGroup g) : Plain b := by
  obtain ⟨d,hd,rfl⟩ := List.mem_map.mp hb
  exact plain_hexDigit d (groupDigits_lt hg d hd)

theorem formatGroup_ne_nil (g : ℕ) : formatGroup g ≠ [] := by
  simp [formatGroup,groupDigits]

section Groups
variable {gs : List ℕ}

theorem splitOn_joinGroups (hne : gs ≠ []) (hgs : ∀ g ∈ gs, g < 65536) :
    (joinGroups gs).splitOn colon = gs.map formatGroup := by
  apply List.splitOn_intercalate
  · intro t ht hmem
    obtain ⟨g,hg,rfl⟩ := List.mem_map.mp ht
    exact (plain_formatGroup (hgs g hg) hmem).2.1 rfl
  · rw [Ne,List.map_eq_nil_iff]
    exact hne

theorem mapM_parseGroup (hgs : ∀ g ∈ gs, g < 65536) : (gs.map formatGroup).mapM parseGroup = some gs := by
  apply mapM_map_some
  intro g hg
  exact parseGroup_formatGroup (hgs g hg)

theorem joinGroups_singleton (g : ℕ) : joinGroups [g] = formatGroup g := List.intercalate_singleton

theorem joinGroups_cons_cons (g g' : ℕ) (gs : List ℕ) :
    joinGroups (g :: g' :: gs) = formatGroup g ++ colon :: joinGroups (g' :: gs) := by
  rw [joinGroups,List.map_cons,List.map_cons,List.intercalate_cons_cons,List.append_assoc]
  rfl

theorem joinGroups_cons (g : ℕ) (gs : List ℕ) : ∃ rest, joinGroups (g :: gs) = formatGroup g ++ rest := by
  cases gs with
  | nil => exact ⟨[],by rw [List.append_nil,joinGroups_singleton]⟩
  | cons g' gs => exact ⟨_,joinGroups_cons_cons g g' gs⟩

/-- A joined text starts with a digit. -/
theorem head?_joinGroups {g : ℕ} (hg : g < 65536) (gs : List ℕ) (s : Bytes) :
    (joinGroups (g :: gs) ++ s).head? ≠ some colon := by
  obtain ⟨rest,hrest⟩ := joinGroups_cons g gs
  rw [hrest]
  cases hdigits : formatGroup g with
  | nil => exact absurd hdigits (formatGroup_ne_nil g)
  | cons c w =>
    have hc : c ∈ formatGroup g := by
      rw [hdigits]
      exact List.mem_cons_self
    intro heq
    exact (plain_formatGroup hg hc).2.1 (Option.some.inj heq)

theorem joinGroups_ne_nil (hne : gs ≠ []) : joinGroups gs ≠ [] := by
  cases gs with
  | nil => exact absurd rfl hne
  | cons g gs =>
    obtain ⟨rest,hrest⟩ := joinGroups_cons g gs
    rw [hrest]
    exact List.append_ne_nil_of_left_ne_nil (formatGroup_ne_nil g) _

theorem hexGroups_joinGroups (hgs : ∀ g ∈ gs, g < 65536) : hexGroups (joinGroups gs) = some gs := by
  cases gs with
  | nil => rfl
  | cons g gs =>
    rw [hexGroups,if_neg (joinGroups_ne_nil (List.cons_ne_nil g gs)),splitOn_joinGroups (List.cons_ne_nil g gs) hgs,
      mapM_parseGroup hgs]

theorem mem_joinGroups (hgs : ∀ g ∈ gs, g < 65536) {b : UInt8} (hb : b ∈ joinGroups gs) : b = colon ∨ Plain b := by
  rcases mem_intercalate hb with rfl | ⟨t,ht,hb⟩
  · exact .inl rfl
  · obtain ⟨g,hg,rfl⟩ := List.mem_map.mp ht
    exact .inr (plain_formatGroup (hgs g hg) hb)

theorem tailGroups_joinGroups (hgs : ∀ g ∈ gs, g < 65536) : tailGroups (joinGroups gs) = some gs := by
  have hlast : ((joinGroups gs).splitOn colon).getLastD [] ∈ [] :: (joinGroups gs).splitOn colon :=
    List.getLastD_mem_cons
  have hdot : (((joinGroups gs).splitOn colon).getLastD []).contains dot = false := by
    rw [List.contains_eq_mem,decide_eq_false_iff_not]
    intro hmem
    cases gs with
    | nil => revert hmem; decide
    | cons g gs =>
      rw [splitOn_joinGroups (List.cons_ne_nil g gs) hgs] at hlast hmem
      rcases List.mem_cons.mp hlast with hnil | hlast
      · rw [hnil] at hmem
        cases hmem
      · obtain ⟨g',hg',heq⟩ := List.mem_map.mp hlast
        rw [← heq] at hmem
        exact (plain_formatGroup (hgs g' hg') hmem).1 rfl
  simp only [tailGroups,hdot]
  exact hexGroups_joinGroups hgs

end Groups

section Ellipsis

theorem cutEllipsis_cons {b : UInt8} {s : Bytes} (h : b ≠ colon ∨ s.head? ≠ some colon) :
    cutEllipsis (b :: s) = (cutEllipsis s).map (fun lr => (b :: lr.1,lr.2)) := by
  cases s with
  | nil => rfl
  | cons c r =>
    rw [cutEllipsis,if_neg]
    rintro ⟨rfl,rfl⟩
    rcases h with h | h
    · exact h rfl
    · exact h rfl

theorem cutEllipsis_colons (s : Bytes) : cutEllipsis (colon :: colon :: s) = some ([],s) := by
  rw [cutEllipsis,if_pos ⟨rfl,rfl⟩]

theorem cutEllipsis_append {w : Bytes} (hw : colon ∉ w) (s : Bytes) :
    cutEllipsis (w ++ s) = (cutEllipsis s).map (fun lr => (w ++ lr.1,lr.2)) := by
  induction w with
  | nil => cases h : cutEllipsis s <;> simp [h]
  | cons b w ih =>
    obtain ⟨hb,hw⟩ := not_or.mp (mt List.mem_cons.mpr hw)
    rw [List.cons_append,cutEllipsis_cons (.inl (Ne.symm hb)),ih hw,Option.map_map]
    rfl

/-- Inside a joined text there are no two colons in a row, so those behind it are the first. -/
theorem cutEllipsis_joinGroups {gs : List ℕ} (hgs : ∀ g ∈ gs, g < 65536) (s : Bytes) :
    cutEllipsis (joinGroups gs ++ s) = (cutEllipsis s).map (fun lr => (joinGroups gs ++ lr.1,lr.2)) := by
  induction gs with
  | nil =>
    have hnil : joinGroups [] = [] := rfl
    rw [hnil]
    exact cutEllipsis_append List.not_mem_nil s
  | cons g gs ih =>
    have hplain : colon ∉ formatGroup g := by
      intro hmem
      exact (plain_formatGroup (hgs g List.mem_cons_self) hmem).2.1 rfl
    cases gs with
    | nil =>
      rw [joinGroups_singleton]
      exact cutEllipsis_append hplain s
    | cons g' gs =>
      have htail := ih (fun x hx => hgs x (List.mem_cons_of_mem _ hx))
      have hhead := head?_joinGroups (hgs g' (List.mem_cons_of_mem _ List.mem_cons_self)) gs s
      rw [joinGroups_cons_cons,List.append_assoc,List.cons_append,cutEllipsis_append hplain,
        cutEllipsis_cons (.inr hhead),htail]
      rw [Option.map_map,Option.map_map]
      congr 1
      funext lr
      simp

end Ellipsis

section Run
variable {gs : List ℕ}

/-- From the first index to the second there are zeros, and at least two of them. -/
structure IsRun (gs : List ℕ) (s e : ℕ) : Prop where
  long : s + 2 ≤ e
  inside : e ≤ gs.length
  zeros : gs = gs.take s ++ List.replicate (e - s) 0 ++ gs.drop e

theorem isRun_runAt {i : ℕ} (h : 2 ≤ runAt gs i) : IsRun gs i (i + runAt gs i) := by
  have hzeros : (gs.drop i).takeWhile (· == 0) = List.replicate (runAt gs i) 0 := by
    rw [List.eq_replicate_iff]
    refine ⟨rfl,?_⟩
    intro g hg
    simpa using List.mem_takeWhile_imp hg
  have hsplit : gs.drop i = List.replicate (runAt gs i) 0 ++ (gs.drop i).dropWhile (· == 0) := by
    rw [← hzeros,List.takeWhile_append_dropWhile]
  have hrest : gs.drop (i + runAt gs i) = (gs.drop i).dropWhile (· == 0) := by
    rw [← List.drop_drop,hsplit,List.drop_left' List.length_replicate,← hsplit]
  have hlen : runAt gs i ≤ (gs.drop i).length := (List.takeWhile_sublist _).length_le
  rw [List.length_drop] at hlen
  refine ⟨by omega,by omega,?_⟩
  rw [Nat.add_sub_cancel_left,hrest,List.append_assoc,← hsplit,List.take_append_drop]

theorem longestRun_isRun {s e : ℕ} (h : longestRun gs = some (s,e)) : IsRun gs s e := by
  -- Whatever the loop holds is a run.
  have hloop : ∀ b ∈ longestRun gs, IsRun gs b.1 b.2 := by
    unfold longestRun
    apply List.foldlRecOn (motive := fun best : Option (ℕ × ℕ) => ∀ b ∈ best, IsRun gs b.1 b.2)
    · intro b hb
      cases hb
    · intro best hbest i _
      split
      · rename_i hlong
        rintro b ⟨⟩
        exact isRun_runAt hlong.1
      · exact hbest
  exact hloop (s,e) h

/-- What is written of an IPv6 address is read back. -/
theorem parse6_format6 (hlen : gs.length = 8) (hgs : ∀ g ∈ gs, g < 65536) : parse6 (format6 gs) = some gs := by
  unfold format6
  cases hrun : longestRun gs with
  | none =>
    have hcut := cutEllipsis_joinGroups hgs []
    rw [List.append_nil,cutEllipsis,Option.map_none] at hcut
    rw [parse6,hcut,tailGroups_joinGroups hgs]
    exact if_pos hlen
  | some se =>
    obtain ⟨s,e⟩ := se
    obtain ⟨hlong,hinside,hzeros⟩ := longestRun_isRun hrun
    have hleft : ∀ g ∈ gs.take s, g < 65536 := fun g hg => hgs g (List.mem_of_mem_take hg)
    have hright : ∀ g ∈ gs.drop e, g < 65536 := fun g hg => hgs g (List.mem_of_mem_drop hg)
    have hcut := cutEllipsis_joinGroups hleft (colon :: colon :: joinGroups (gs.drop e))
    rw [cutEllipsis_colons,Option.map_some,List.append_nil] at hcut
    have hcount : (gs.take s).length + (gs.drop e).length < 8 := by
      rw [List.length_take,List.length_drop]
      omega
    have hgap : 8 - (gs.take s).length - (gs.drop e).length = e - s := by
      rw [List.length_take,List.length_drop]
      omega
    dsimp only
    rw [parse6,hcut]
    dsimp only
    rw [hexGroups_joinGroups hleft,tailGroups_joinGroups hright]
    simp only [Option.bind_eq_bind,Option.bind_some,hcount,if_true,hgap]
    rw [← hzeros]

theorem mem_format6 (hgs : ∀ g ∈ gs, g < 65536) {b : UInt8} (hb : b ∈ format6 gs) : b = colon ∨ Plain b := by
  unfold format6 at hb
  split at hb
  · exact mem_joinGroups hgs hb
  · rcases List.mem_append.mp hb with hb | hb
    · exact mem_joinGroups (fun g hg => hgs g (List.mem_of_mem_take hg)) hb
    · simp only [List.mem_cons] at hb
      rcases hb with rfl | rfl | hb
      · exact .inl rfl
      · exact .inl rfl
      · exact mem_joinGroups (fun g hg => hgs g (List.mem_of_mem_drop hg)) hb

theorem colon_mem_format6 (hlen : gs.length = 8) : colon ∈ format6 gs := by
  unfold format6
  split
  · match gs, hlen with
    | g :: g' :: gs, _ => exact sep_mem_intercalate _ _ _ _
  · simp

end Run

section Octets

theorem length_groupsOf {b : Bytes} {n : ℕ} (hb : b.length = 2*n) : (groupsOf b).length = n := by
  induction n generalizing b with
  | zero =>
    cases List.length_eq_zero_iff.mp hb
    rfl
  | succ n ih =>
    match b, hb with
    | o₁ :: o₂ :: b, hb =>
      rw [groupsOf,List.length_cons,ih (by simp only [List.length_cons] at hb; omega)]

theorem groupsOf_lt {b : Bytes} {g : ℕ} (hg : g ∈ groupsOf b) : g < 65536 := by
  fun_induction groupsOf b with
  | case1 o₁ o₂ b ih =>
    rcases List.mem_cons.mp hg with rfl | hg
    · simpa using beValue_lt [o₁,o₂]
    · exact ih hg
  | case2 => cases hg

theorem octetsOf_groupsOf {b : Bytes} {n : ℕ} (hb : b.length = 2*n) : octetsOf (groupsOf b) = b := by
  induction n generalizing b with
  | zero =>
    cases List.length_eq_zero_iff.mp hb
    rfl
  | succ n ih =>
    match b, hb with
    | o₁ :: o₂ :: b, hb =>
      have htail := ih (b := b) (by simp only [List.length_cons] at hb; omega)
      have hhead := beBytes_beValue [o₁,o₂]
      rw [octetsOf] at htail
      rw [groupsOf,octetsOf,List.flatMap_cons,htail]
      exact congrArg (· ++ b) hhead

end Octets

end IPv6

section Addr

def vectorOf (n : ℕ) (b : Bytes) : Option (Vector UInt8 n) :=
  if h : b.length = n then some ⟨b.toArray,h⟩ else none

theorem vectorOf_toList {n : ℕ} (v : Vector UInt8 n) : vectorOf n v.toList = some v := by
  simp [vectorOf,Vector.toList]

namespace IpAddr

def mappedFront : Bytes := [0,0,0,0,0,0,0,0,0,0,255,255]

/-- `Addr.Unmap`: the IPv4 address that is mapped into IPv6. -/
def unmap : IpAddr → IpAddr
  | v4 octets => v4 octets
  | v6 octets =>
    if octets.toList.take 12 = mappedFront then ((vectorOf 4 (octets.toList.drop 12)).map v4).getD (v6 octets)
    else v6 octets

def isV6 : IpAddr → Bool
  | v4 _ => false
  | v6 _ => true

/-- `Addr.String`, which keeps the form of a mapped address. -/
def text : IpAddr → Bytes
  | v4 octets => format4 octets.toList
  | v6 octets =>
    if octets.toList.take 12 = mappedFront then ascii "::ffff:" ++ format4 (octets.toList.drop 12)
    else format6 (groupsOf octets.toList)

end IpAddr

/-- What tells the two kinds of address apart, and a zone from both. -/
def marks (b : UInt8) : Bool := b == dot || b == colon || b == percent

/-- `netip.ParseAddr` of an address without a zone. -/
def parseAddr (s : Bytes) : Option IpAddr :=
  match s.find? marks with
  | some b =>
    if b = dot then do
      let octets ← parse4 s
      (vectorOf 4 octets).map .v4
    else if b = colon then do
      let gs ← parse6 s
      (vectorOf 16 (octetsOf gs)).map .v6
    else none
  | none => none

/-- The mark that comes first is the only one there is. -/
theorem find?_marks {s : Bytes} {c : UInt8} (hc : marks c = true) (hmem : c ∈ s)
    (hs : ∀ b ∈ s, b = c ∨ marks b = false) : s.find? marks = some c := by
  cases h : s.find? marks with
  | none => exact absurd hc (by simpa using List.find?_eq_none.mp h c hmem)
  | some b =>
    rcases hs b (List.mem_of_find?_eq_some h) with rfl | hb
    · rfl
    · rw [List.find?_some h] at hb
      cases hb

theorem marks_of_isDigit {b : UInt8} (h : isDigit b = true) : marks b = false := by
  have hdot := isDigit_ne h (show isDigit dot = false by decide)
  have hcolon := isDigit_ne h (show isDigit colon = false by decide)
  have hpercent := isDigit_ne h (show isDigit percent = false by decide)
  simp [marks,hdot,hcolon,hpercent]

theorem find?_marks_format4 {octets : Bytes} (hlen : octets.length = 4) : (format4 octets).find? marks = some dot := by
  apply find?_marks (by decide)
  · match octets, hlen with
    | o₁ :: o₂ :: octets, _ => exact sep_mem_intercalate _ _ _ _
  · intro b hb
    rcases mem_format4 hb with rfl | hb
    · exact .inl rfl
    · exact .inr (marks_of_isDigit hb)

theorem find?_marks_format6 {gs : List ℕ} (hlen : gs.length = 8) (hgs : ∀ g ∈ gs, g < 65536) :
    (format6 gs).find? marks = some colon := by
  apply find?_marks (by decide) (colon_mem_format6 hlen)
  intro b hb
  rcases mem_format6 hgs hb with rfl | ⟨hdot,hcolon,-,-,hpercent⟩
  · exact .inl rfl
  · exact .inr (by simp [marks,hdot,hcolon,hpercent])

theorem parseAddr_format4 (octets : Vector UInt8 4) : parseAddr (format4 octets.toList) = some (.v4 octets) := by
  have hlen : octets.toList.length = 4 := by simp
  rw [parseAddr,find?_marks_format4 hlen]
  simp only [if_true,parse4_format4 hlen,Option.bind_eq_bind,Option.bind_some,vectorOf_toList,Option.map_some]

theorem parseAddr_format6 (octets : Vector UInt8 16) :
    parseAddr (format6 (groupsOf octets.toList)) = some (.v6 octets) := by
  have hlen : octets.toList.length = 2*8 := by simp
  have hgroups := length_groupsOf hlen
  have hgs : ∀ g ∈ groupsOf octets.toList, g < 65536 := fun g hg => groupsOf_lt hg
  rw [parseAddr,find?_marks_format6 hgroups hgs]
  dsimp only
  rw [if_neg (by decide),if_pos rfl,parse6_format6 hgroups hgs]
  simp only [Option.bind_eq_bind,Option.bind_some,octetsOf_groupsOf hlen,vectorOf_toList,Option.map_some]

/-- An address that is not mapped into IPv6. -/
inductive IpAddr.Unmapped : IpAddr → Prop
  | v4 (octets : Vector UInt8 4) : Unmapped (.v4 octets)
  | v6 {octets : Vector UInt8 16} (h : octets.toList.take 12 ≠ mappedFront) : Unmapped (.v6 octets)

theorem IpAddr.unmapped_unmap (ip : IpAddr) : Unmapped ip.unmap := by
  cases ip with
  | v4 octets => exact .v4 octets
  | v6 octets =>
    by_cases hmapped : octets.toList.take 12 = mappedFront
    · have hlen : (octets.toList.drop 12).length = 4 := by simp
      rw [unmap,if_pos hmapped,vectorOf,dif_pos hlen]
      exact .v4 _
    · rw [unmap,if_neg hmapped]
      exact .v6 hmapped

namespace IpAddr.Unmapped
variable {ip : IpAddr}

theorem unmap_eq (h : Unmapped ip) : ip.unmap = ip := by
  cases h with
  | v4 octets => rfl
  | v6 hplain => exact if_neg hplain

/-- What is written of an address is read back. -/
theorem parseAddr_text (h : Unmapped ip) : parseAddr ip.text = some ip := by
  cases h with
  | v4 octets => exact parseAddr_format4 octets
  | v6 hplain =>
    rw [text,if_neg hplain]
    exact parseAddr_format6 _

/-- Only the text of an IPv6 address has colons. -/
theorem contains_colon_text (h : Unmapped ip) : ip.text.contains colon = ip.isV6 := by
  cases h with
  | v4 octets =>
    rw [text,isV6,List.contains_eq_mem,decide_eq_false_iff_not]
    exact notMem_format4 (by decide) (by decide) _
  | @v6 octets hplain =>
    have hgroups := length_groupsOf (show octets.toList.length = 2*8 by simp)
    rw [text,if_neg hplain,isV6,List.contains_eq_mem,decide_eq_true_iff]
    exact colon_mem_format6 hgroups

theorem openBracket_notMem_text (h : Unmapped ip) : openBracket ∉ ip.text := by
  cases h with
  | v4 octets => exact notMem_format4 (by decide) (by decide) _
  | v6 hplain =>
    rw [text,if_neg hplain]
    intro hmem
    rcases mem_format6 (fun g hg => groupsOf_lt hg) hmem with h | h
    · exact absurd h (by decide)
    · exact h.2.2.1 rfl

theorem text_ne_nil (h : Unmapped ip) : ip.text ≠ [] := by
  intro hnil
  have hparse := h.parseAddr_text
  rw [hnil] at hparse
  cases hparse

end IpAddr.Unmapped

end Addr

end DhtOcean.Foundation
