import DhtOcean.Foundation.BigEndian

/-! # Network addresses

An IPv4 address and its form mapped into IPv6 are different addresses; neither
carries a zone.
-/
namespace DhtOcean.Foundation

inductive IpAddr
  | v4 (octets : Vector UInt8 4)
  | v6 (octets : Vector UInt8 16)
  deriving DecidableEq, Repr

def IpAddr.isUnspecified : IpAddr → Bool
  | v4 octets => octets == Vector.replicate 4 0
  | v6 octets => octets == Vector.replicate 16 0

structure AddrPort where
  ip : IpAddr
  port : UInt16
  deriving DecidableEq, Repr

end DhtOcean.Foundation
