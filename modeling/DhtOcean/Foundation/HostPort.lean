import DhtOcean.Foundation.AddrText

/-! # Addresses with ports as text

The port follows the last colon, so an IPv6 address in front of it has to stand in
brackets. What is written is read back, and an IPv6 address without brackets is
not read with a port at all.
-/
namespace DhtOcean.Foundation

/-- The text in front of the last colon, and that behind it. -/
def cutLast : Bytes → Option (Bytes × Bytes)
  | [] => none
  | b :: s =>
    match cutLast s with
    | some (l,r) => some (b :: l,r)
    | none => if b = colon then some ([],s) else none

/-- The host, and whether it stood in brackets. -/
def unbracket : Bytes → Option (Bytes × Bool)
  | [] => none
  | b :: s =>
    if b = openBracket then
      if s.getLast? = some closeBracket then some (s.dropLast,true) else none
    else some (b :: s,false)

def parsePort (s : Bytes) : Option UInt16 :=
  match parseUint 0 s with
  | .ok n => if s ≠ [] ∧ n < 65536 then some (UInt16.ofNat n) else none
  | .error _ => none

/-- `netip.ParseAddrPort`: brackets are for IPv6 addresses, and all of those need them. -/
def parseAddrPort (s : Bytes) : Option AddrPort := do
  let (host,port) ← cutLast s
  let (host,bracketed) ← unbracket host
  let port ← parsePort port
  let ip ← parseAddr host
  if ip.isV6 = bracketed then some ⟨ip,port⟩ else none

/-- `net.JoinHostPort`. -/
def joinHostPort (host port : Bytes) : Bytes :=
  if host.contains colon then openBracket :: host ++ closeBracket :: colon :: port else host ++ colon :: port

/-- `UDPAddr.String`, where a mapped address has the form of an IPv4 address. -/
def AddrPort.text (a : AddrPort) : Bytes := joinHostPort a.ip.unmap.text (formatNat a.port.toNat)

theorem cutLast_of_notMem {s : Bytes} (h : colon ∉ s) : cutLast s = none := by
  induction s with
  | nil => rfl
  | cons b s ih =>
    obtain ⟨hb,hs⟩ := not_or.mp (mt List.mem_cons.mpr h)
    rw [cutLast,ih hs]
    exact if_neg (Ne.symm hb)

theorem cutLast_append (l : Bytes) {r : Bytes} (hr : colon ∉ r) : cutLast (l ++ colon :: r) = some (l,r) := by
  induction l with
  | nil =>
    rw [List.nil_append,cutLast,cutLast_of_notMem hr]
    exact if_pos rfl
  | cons b l ih => rw [List.cons_append,cutLast,ih]

theorem unbracket_plain {host : Bytes} (hne : host ≠ []) (h : openBracket ∉ host) :
    unbracket host = some (host,false) := by
  cases host with
  | nil => exact absurd rfl hne
  | cons b s =>
    rw [unbracket,if_neg]
    rintro rfl
    exact h List.mem_cons_self

theorem unbracket_brackets (host : Bytes) : unbracket (openBracket :: host ++ [closeBracket]) = some (host,true) := by
  rw [List.cons_append,unbracket,if_pos rfl,List.getLast?_concat,if_pos rfl,List.dropLast_concat]

theorem parsePort_formatNat {n : ℕ} (hn : n < 65536) : parsePort (formatNat n) = some (UInt16.ofNat n) := by
  rw [parsePort,parseUint_formatNat (hn.trans (by norm_num))]
  exact if_pos ⟨formatNat_ne_nil n,hn⟩

section HostPort
variable {host : Bytes} {n : ℕ}

/-- A decimal port is all that stands behind the last colon. -/
theorem parseAddrPort_port {h : Bytes} {bracketed : Bool} {ip : IpAddr} (hn : n < 65536)
    (hhost : unbracket host = some (h,bracketed)) (hip : parseAddr h = some ip) :
    parseAddrPort (host ++ colon :: formatNat n) =
      if ip.isV6 = bracketed then some ⟨ip,UInt16.ofNat n⟩ else none := by
  have hcolon : colon ∉ formatNat n := by
    intro hmem
    exact absurd (formatNat_isDigit hmem) (by decide)
  rw [parseAddrPort,cutLast_append host hcolon]
  simp only [Option.bind_eq_bind,Option.bind_some,hhost,parsePort_formatNat hn,hip]

/-- A host without brackets is read only if it is an IPv4 address. -/
theorem parseAddrPort_bare {ip : IpAddr} (hip : ip.Unmapped) (hn : n < 65536) :
    parseAddrPort (ip.text ++ colon :: formatNat n) =
      if ip.isV6 = false then some ⟨ip,UInt16.ofNat n⟩ else none :=
  parseAddrPort_port hn (unbracket_plain hip.text_ne_nil hip.openBracket_notMem_text) hip.parseAddr_text

/-- What is written of an address with its port is read back. -/
theorem parseAddrPort_text (a : AddrPort) : parseAddrPort a.text = some ⟨a.ip.unmap,a.port⟩ := by
  have hip := a.ip.unmapped_unmap
  have hport : a.port.toNat < 65536 := a.port.toNat_lt
  have hback : UInt16.ofNat a.port.toNat = a.port := UInt16.ofNat_toNat
  rw [AddrPort.text,joinHostPort,hip.contains_colon_text]
  cases hv6 : a.ip.unmap.isV6 with
  | true =>
    have hjoin : openBracket :: a.ip.unmap.text ++ closeBracket :: colon :: formatNat a.port.toNat =
        (openBracket :: a.ip.unmap.text ++ [closeBracket]) ++ colon :: formatNat a.port.toNat := by simp
    rw [if_pos rfl,hjoin,parseAddrPort_port hport (unbracket_brackets _) hip.parseAddr_text,if_pos hv6,hback]
  | false => rw [if_neg Bool.false_ne_true,parseAddrPort_bare hip hport,if_pos hv6,hback]

end HostPort

end DhtOcean.Foundation
