import DhtOcean.Bencode.Paths
import DhtOcean.Foundation.Net
import DhtOcean.Krpc.Packet

/-! # Nodes, requests and responses

Slices of a packet are cut and appended to as Go does it: a slice expression may
reach up to the capacity, and an append within the capacity writes into the
datagram itself. Functions that may write take the octets of the datagram and
return them.
-/
namespace DhtOcean.Krpc
open Foundation Bencode

/-- A call whose only failure is a panic. -/
abbrev Call := Outcome Empty

/-- `s[lo:hi]` -/
def cut (mem : Bytes) (s : Slice) (lo hi : ℕ) : Call Slice :=
  if lo ≤ hi ∧ hi ≤ s.cap mem then
    match s with
    | .view off _ => .ok (.view (off + lo) (hi - lo))
    | .owned b => .ok (.owned ((b.drop lo).take (hi - lo)))
  else .panic .sliceBounds

/-- `append(s, b...)`; a slice that outgrows its array is copied to a new one. -/
def appendTo (mem : Bytes) (s : Slice) (b : Bytes) : Slice × Bytes :=
  match s with
  | .view off len =>
    if len + b.length ≤ s.cap mem then (.view off (len + b.length),overwrite mem (off + len) b)
    else (.owned (s.read mem ++ b),mem)
  | .owned a => (.owned (a ++ b),mem)

/-- The nil slice has neither length nor capacity. -/
def orNil (s : Option Slice) : Slice := s.getD (.owned [])

def getNeighbourID (mem : Bytes) (target : Slice) (nodeID : Bytes) : Call (Slice × Bytes) := do
  let front ← cut mem target 0 10
  if nodeID.length < 10 then .panic .sliceBounds
  else return appendTo mem front (nodeID.drop 10)

/-- `v.([]byte)` -/
def assertBytes : Value Slice → Call Slice
  | .bytes s => .ok s
  | _ => .panic .typeAssertion

section Getters
variable {Addr : Type} (p : Packet Addr)

def Packet.get (key : Bytes) : Option (Value Slice) := p.data.lookup key

/-- An absent field is nil; a field of another type fails the assertion. -/
def Packet.getBytes (key : Bytes) : Call (Option Slice) :=
  match p.get key with
  | none => .ok none
  | some v => do
    let s ← assertBytes v
    return some s

/-- The conversion to a string copies what the slice shows. -/
def Packet.getString (key : Bytes) : Call Bytes := do
  let s ← p.getBytes key
  return (orNil s).read p.buf

def Packet.getT : Call (Option Slice) := p.getBytes (ascii "t")
def Packet.getY : Call Bytes := p.getString (ascii "y")
def Packet.getQ : Call Bytes := p.getString (ascii "q")

end Getters

structure Node where
  nodeID : Slice
  addr : AddrPort
  deriving DecidableEq, Repr

def rawNodeLength : ℕ := 26

def getIP (mem : Bytes) (rawIP : Slice) : Call IpAddr :=
  match rawIP.read mem with
  | a :: b :: c :: d :: _ => .ok (.v4 #v[a,b,c,d])
  | _ => .panic .indexOutOfRange

def getPort (mem : Bytes) (rawPort : Slice) : Call UInt16 :=
  match rawPort.read mem with
  | hi :: lo :: _ => .ok (.ofNat (beValue [hi,lo]))
  | _ => .panic .indexOutOfRange

def newNodeFromRaw (mem : Bytes) (raw : Slice) : Call Node := do
  let nodeID ← cut mem raw 0 20
  let rawIP ← cut mem raw 20 24
  let rawPort ← cut mem raw 24 26
  let ip ← getIP mem rawIP
  let port ← getPort mem rawPort
  return ⟨nodeID,ip,port⟩

/-- The records `i`, `i+1`, … of the loop while another octet follows them; `n` bounds their number. -/
def rawNodesFrom (mem : Bytes) (rawNodes : Slice) : ℕ → ℕ → Call (List Node)
  | 0, _ => .ok []
  | n+1, i =>
    if (i+1)*rawNodeLength < rawNodes.length then do
      let raw ← cut mem rawNodes (i*rawNodeLength) ((i+1)*rawNodeLength)
      let node ← newNodeFromRaw mem raw
      let nodes ← rawNodesFrom mem rawNodes n (i+1)
      return node :: nodes
    else .ok []

structure FindNodeResponse where
  tid : Option Slice
  targetNodeID : Slice
  nodes : List Node

/-- An absent entry of a map is a nil interface, which fails every assertion. -/
def assertEntry (m : Dict Slice) (key : Bytes) : Call Slice :=
  match m.lookup key with
  | none => .panic .typeAssertion
  | some v => assertBytes v

/-- The error of the source, a nil response, is `none`. -/
def newFindNodeResponse {Addr : Type} (p : Packet Addr) : Call (Option FindNodeResponse) := do
  let tid ← p.getT
  match p.get (ascii "r") with
  | some (.map m) => do
    let targetNodeID ← assertEntry m (ascii "id")
    let rawNodes ← assertEntry m (ascii "nodes")
    let nodes ← rawNodesFrom p.buf rawNodes rawNodes.length 0
    return some ⟨tid,targetNodeID,nodes⟩
  | _ => return none

end DhtOcean.Krpc
