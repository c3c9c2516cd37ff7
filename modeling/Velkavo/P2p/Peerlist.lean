import Velkavo.ByteCodec.Codec
import Velkavo.Containers.TimedIndex
import Mathlib.Data.Int.ConditionallyCompleteOrder

namespace Velkavo.P2p

open ByteCodec

structure AddressV6 where
  bytes : Vector UInt8 16
  scopeId : UInt64
  deriving DecidableEq

namespace AddressV6

def isLoopback (a : AddressV6) : Bool := a.bytes.toList == List.replicate 15 0 ++ [1]

def isLinkLocal (a : AddressV6) : Bool := a.bytes[0] == 0xfe && a.bytes[1] &&& 0xc0 == 0x80

def isV4Mapped (a : AddressV6) : Bool := a.bytes.toList.take 12 == List.replicate 10 0 ++ [0xff, 0xff]

def toV4 (a : AddressV6) : UInt32 :=
  a.bytes[12].toUInt32 ||| a.bytes[13].toUInt32 <<< 8 ||| a.bytes[14].toUInt32 <<< 16 ||| a.bytes[15].toUInt32 <<< 24

end AddressV6

inductive NetworkAddress
  | none
  | ipv4 (ip : UInt32) (port : UInt16)
  | ipv6 (address : AddressV6) (port : UInt16)
  | tor (host : Bytes) (port : UInt16)
  | i2p (host : Bytes)
  deriving DecidableEq

def isIpLocal (ip : UInt32) : Bool :=
  let secondNum := (ip >>> 8) &&& 0xff
  ip ||| 0xffffff00 == 0xffffff0a || ip ||| 0xffff0000 == 0xffffa8c0 ||
    (ip ||| 0xffffff00 == 0xffffffac && decide (16 ≤ secondNum) && decide (secondNum ≤ 31))

def isIpLoopback (ip : UInt32) : Bool := ip ||| 0xffffff00 == 0xffffff7f

namespace NetworkAddress

def isLoopback : NetworkAddress → Bool
  | ipv4 ip _ => isIpLoopback ip
  | ipv6 address _ => address.isLoopback
  | _ => false

def isLocal : NetworkAddress → Bool
  | ipv4 ip _ => isIpLocal ip
  | ipv6 address _ => address.isLinkLocal
  | _ => false

def isSameHost : NetworkAddress → NetworkAddress → Bool
  | none, none => true
  | ipv4 ip _, ipv4 ip' _ => ip == ip'
  | ipv6 address _, ipv6 address' _ => address == address'
  | tor host _, tor host' _ => host == host'
  | i2p host, i2p host' => host == host'
  | ipv4 ip _, ipv6 address _ => address.isV4Mapped && ip == address.toV4
  | ipv6 address _, ipv4 ip _ => address.isV4Mapped && ip == address.toV4
  | _, _ => false

theorem isSameHost_comm (a b : NetworkAddress) : a.isSameHost b = b.isSameHost a := by
  cases a <;> cases b <;> first | rfl | exact Bool.beq_comm

end NetworkAddress

structure PeerlistEntry where
  adr : NetworkAddress
  id : UInt64
  lastSeen : ℤ
  pruningSeed : UInt32
  rpcPort : UInt16
  rpcCreditsPerHash : UInt32
  deriving DecidableEq

structure AnchorPeerlistEntry where
  adr : NetworkAddress
  id : UInt64
  firstSeen : ℤ
  deriving DecidableEq

abbrev PeersIndexed := TimedIndex PeerlistEntry.adr PeerlistEntry.lastSeen

abbrev AnchorPeersIndexed := TimedIndex AnchorPeerlistEntry.adr AnchorPeerlistEntry.firstSeen

abbrev localWhitePeerlistLimit : ℕ := 1000

abbrev localGrayPeerlistLimit : ℕ := 5000

structure PeerlistManager where
  allowLocalIp : Bool
  peersGray : PeersIndexed
  peersWhite : PeersIndexed
  peersAnchor : AnchorPeersIndexed

namespace PeerlistManager

def fresh (allowLocalIp : Bool) : PeerlistManager := ⟨allowLocalIp, ∅, ∅, ∅⟩

def isHostAllowed (m : PeerlistManager) (address : NetworkAddress) : Bool :=
  if address.isLoopback then false else if !m.allowLocalIp && address.isLocal then false else true

def trimWhitePeerlist (m : PeerlistManager) : PeerlistManager :=
  { m with peersWhite := m.peersWhite.trim localWhitePeerlistLimit }

def trimGrayPeerlist (m : PeerlistManager) : PeerlistManager :=
  { m with peersGray := m.peersGray.trim localGrayPeerlistLimit }

def filter (m : PeerlistManager) (white : Bool) (f : PeerlistEntry → Bool) : PeerlistManager :=
  if white then { m with peersWhite := m.peersWhite.eraseIf f } else { m with peersGray := m.peersGray.eraseIf f }

def evictHostFromPeerlist (m : PeerlistManager) (useWhite : Bool) (pr : PeerlistEntry) : PeerlistManager :=
  m.filter useWhite fun pe => pe.adr.isSameHost pr.adr

def keepKnown (known ple : PeerlistEntry) : PeerlistEntry :=
  { ple with
    pruningSeed := if known.pruningSeed ≠ 0 ∧ ple.pruningSeed = 0 then known.pruningSeed else ple.pruningSeed
    rpcPort := if known.rpcPort ≠ 0 ∧ ple.rpcPort = 0 then known.rpcPort else ple.rpcPort }

def appendWithPeerWhite (m : PeerlistManager) (ple : PeerlistEntry) (trustLastSeen : Bool) : PeerlistManager :=
  if !m.isHostAllowed ple.adr then m
  else
    let m := match m.peersWhite.find ple.adr with
      | none =>
        let m := m.evictHostFromPeerlist true ple
        trimWhitePeerlist { m with peersWhite := m.peersWhite.insert ple }
      | some known =>
        let newPle := keepKnown known ple
        let newPle := if trustLastSeen then newPle else { newPle with lastSeen := known.lastSeen }
        { m with peersWhite := m.peersWhite.replace newPle }
    { m with peersGray := m.peersGray.erase ple.adr }

def appendWithPeerGray (m : PeerlistManager) (ple : PeerlistEntry) : PeerlistManager :=
  if !m.isHostAllowed ple.adr then m
  else if (m.peersWhite.find ple.adr).isSome then m
  else
    match m.peersGray.find ple.adr with
    | none => trimGrayPeerlist { m with peersGray := m.peersGray.insert ple }
    | some known => { m with peersGray := m.peersGray.replace { keepKnown known ple with lastSeen := known.lastSeen } }

def appendWithPeerAnchor (m : PeerlistManager) (ple : AnchorPeerlistEntry) : PeerlistManager :=
  { m with peersAnchor := m.peersAnchor.insert ple }

def mergePeerlist (m : PeerlistManager) (outerBs : List PeerlistEntry) (f : Option (PeerlistEntry → Bool)) : PeerlistManager :=
  trimGrayPeerlist (outerBs.foldl (fun m be => if f.all (· be) then m.appendWithPeerGray be else m) m)

def setPeerJustSeen (m : PeerlistManager) (now : ℤ) (peer : UInt64) (addr : NetworkAddress) (pruningSeed : UInt32)
    (rpcPort : UInt16) (rpcCreditsPerHash : UInt32) : PeerlistManager :=
  m.appendWithPeerWhite ⟨addr, peer, now, pruningSeed, rpcPort, rpcCreditsPerHash⟩ true

def removeFromPeerWhite (m : PeerlistManager) (pe : PeerlistEntry) : PeerlistManager :=
  { m with peersWhite := m.peersWhite.erase pe.adr }

def removeFromPeerGray (m : PeerlistManager) (pe : PeerlistEntry) : PeerlistManager :=
  { m with peersGray := m.peersGray.erase pe.adr }

def removeFromPeerAnchor (m : PeerlistManager) (addr : NetworkAddress) : PeerlistManager :=
  { m with peersAnchor := m.peersAnchor.erase addr }

def getAndEmptyAnchorPeerlist (m : PeerlistManager) : PeerlistManager × List AnchorPeerlistEntry :=
  ({ m with peersAnchor := ∅ }, m.peersAnchor.entries)

end PeerlistManager

end Velkavo.P2p
