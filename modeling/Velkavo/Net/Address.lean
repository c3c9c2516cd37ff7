import Velkavo.Net.Subnet

namespace Velkavo.Net

open ByteCodec

def isBase32 (b : UInt8) : Bool := (0x61 ≤ b && b ≤ 0x7a) || (0x32 ≤ b && b ≤ 0x37)

structure TorHost where
  body : Bytes
  length_eq : body.length = 56
  base32 : body.all isBase32 = true
  deriving DecidableEq

structure I2pHost where
  body : Bytes
  length_eq : body.length = 52
  base32 : body.all isBase32 = true
  deriving DecidableEq

structure AddressV6 where
  bytes : Blob 16
  scopeId : UInt32
  deriving DecidableEq

namespace AddressV6

def isV4Mapped (a : AddressV6) : Bool :=
  a.bytes.bytes.take 12 == List.replicate 10 0 ++ [0xff, 0xff]

def toV4 (a : AddressV6) : UInt32 := UInt32.ofNat (ofLittleEndian (a.bytes.bytes.drop 12))

end AddressV6

inductive NetworkAddress
  | none
  | ipv4 (address : Ipv4NetworkAddress)
  | ipv6 (ip : AddressV6) (port : UInt16)
  | tor (host : Option TorHost) (port : UInt16)
  | i2p (host : Option I2pHost)
  deriving DecidableEq

/-- Boost's text of an IPv6 address: different addresses have different texts, each with a colon. -/
structure V6Text where
  run : AddressV6 → Bytes
  injective : Function.Injective run
  colon : ∀ a, (0x3a : UInt8) ∈ run a

def Quad.ofWord (ip : UInt32) : Quad :=
  ⟨UInt8.ofNat ip.toNat, UInt8.ofNat (ip.toNat >>> 8), UInt8.ofNat (ip.toNat >>> 16),
    UInt8.ofNat (ip.toNat >>> 24)⟩

def getIpStringFromInt32 (ip : UInt32) : Bytes := (Quad.ofWord ip).text

def TorHost.text (h : TorHost) : Bytes := h.body ++ ascii ".onion"

def I2pHost.text (h : I2pHost) : Bytes := h.body ++ ascii ".b32.i2p"

def unknownTorHost : Bytes := ascii "<unknown tor host>"

def unknownI2pHost : Bytes := ascii "<unknown i2p host>"

namespace NetworkAddress

def torText (host : Option TorHost) : Bytes := host.elim unknownTorHost TorHost.text

def i2pText (host : Option I2pHost) : Bytes := host.elim unknownI2pHost I2pHost.text

def hostStr (v6 : V6Text) : NetworkAddress → Bytes
  | none => ascii "<none>"
  | ipv4 address => getIpStringFromInt32 address.ip
  | ipv6 ip _ => v6.run ip
  | tor host _ => torText host
  | i2p host => i2pText host

def isBlockable : NetworkAddress → Bool
  | none => false
  | ipv4 _ => true
  | ipv6 _ _ => true
  | tor host _ => host.isSome
  | i2p host => host.isSome

def isSameHost : NetworkAddress → NetworkAddress → Bool
  | none, none => true
  | ipv4 a, ipv4 b => a.ip = b.ip
  | ipv6 a _, ipv6 b _ => a = b
  | tor a _, tor b _ => torText a = torText b
  | i2p a, i2p b => i2pText a = i2pText b
  | ipv4 a, ipv6 b _ => b.isV4Mapped && a.ip = b.toV4
  | ipv6 a _, ipv4 b => a.isV4Mapped && b.ip = a.toV4
  | _, _ => false

def sameType : NetworkAddress → NetworkAddress → Bool
  | none, none => true
  | ipv4 _, ipv4 _ => true
  | ipv6 _ _, ipv6 _ _ => true
  | tor _ _, tor _ _ => true
  | i2p _, i2p _ => true
  | _, _ => false

end NetworkAddress

theorem word_ofWord (ip : UInt32) : (Quad.ofWord ip).word = ip := by
  have hlt := ip.toNat_lt
  apply UInt32.toNat_inj.mp
  rw [toNat_word]
  simp only [Quad.ofWord, Quad.octets, ofLittleEndian, UInt8.toNat_ofNat', Nat.shiftRight_eq_div_pow]
  omega

theorem getIpStringFromInt32_injective : Function.Injective getIpStringFromInt32 := by
  intro a b h
  have hrun := congrArg InetAddr.quads.run h
  rwa [getIpStringFromInt32, getIpStringFromInt32, InetAddr.quads.run_text, InetAddr.quads.run_text,
    word_ofWord, word_ofWord] at hrun

inductive TextKind
  | colon
  | digit
  | onion
  | i2p
  | other
  deriving DecidableEq

def textKind (t : Bytes) : TextKind :=
  if (0x3a : UInt8) ∈ t then .colon
  else
    match t.getLast? with
    | none => .other
    | some b => if isDigit b then .digit else if b = 0x6e then .onion else if b = 0x70 then .i2p else .other

theorem textKind_of_last {t : Bytes} {b : UInt8} (hc : (0x3a : UInt8) ∉ t) (hb : t.getLast? = some b) :
    textKind t = if isDigit b then .digit else if b = 0x6e then .onion else if b = 0x70 then .i2p
      else .other := by
  rw [textKind, if_neg hc, hb]

theorem textKind_ip (ip : UInt32) : textKind (getIpStringFromInt32 ip) = .digit := by
  generalize hq : Quad.ofWord ip = q
  have hdec : ∀ n, (0x3a : UInt8) ∉ decimal n := fun n => not_mem_decimal rfl
  have hdot : (0x3a : UInt8) ∉ ascii "." := by decide
  have htext : getIpStringFromInt32 ip = (decimal q.a.toNat ++ (ascii "." ++ (decimal q.b.toNat ++
      (ascii "." ++ (decimal q.c.toNat ++ ascii "."))))) ++ decimal q.d.toNat := by
    simp [getIpStringFromInt32, hq, Quad.text, Quad.octets, List.intercalate]
  have hb := List.getLast?_eq_some_getLast (decimal_ne_nil q.d.toNat)
  generalize (decimal q.d.toNat).getLast (decimal_ne_nil q.d.toNat) = b at hb
  have hdigit : isDigit b = true := isDigit_of_mem_decimal (List.mem_of_getLast? hb)
  rw [htext, textKind_of_last (by simp [hdec, hdot]) (by rw [List.getLast?_append, hb]; rfl), if_pos hdigit]

theorem colon_notMem_base32 {l : Bytes} (h : l.all isBase32 = true) : (0x3a : UInt8) ∉ l := by
  intro hm
  have := List.all_eq_true.mp h _ hm
  exact absurd this (by decide)

theorem textKind_append {name tld : Bytes} (hname : name.all isBase32 = true) (hcolon : (0x3a : UInt8) ∉ tld)
    (htld : tld ≠ []) : textKind (name ++ tld) = textKind tld := by
  have hlast := List.getLast?_eq_some_getLast htld
  have hc : (0x3a : UInt8) ∉ name ++ tld := by simp [colon_notMem_base32 hname, hcolon]
  rw [textKind_of_last hcolon hlast, textKind_of_last hc (by rw [List.getLast?_append, hlast]; rfl)]

theorem textKind_tor (h : TorHost) : textKind h.text = .onion := by
  rw [TorHost.text, textKind_append h.base32 (by decide) (by decide)]
  rfl

theorem textKind_i2p (h : I2pHost) : textKind h.text = .i2p := by
  rw [I2pHost.text, textKind_append h.base32 (by decide) (by decide)]
  rfl

namespace NetworkAddress

def label : NetworkAddress → TextKind × Bytes
  | none => (.other, ascii "<none>")
  | ipv4 _ => (.digit, [])
  | ipv6 _ _ => (.colon, [])
  | tor (some _) _ => (.onion, [])
  | tor .none _ => (.other, unknownTorHost)
  | i2p (some _) => (.i2p, [])
  | i2p .none => (.other, unknownI2pHost)

theorem label_eq (v6 : V6Text) (a : NetworkAddress) :
    a.label = (textKind (a.hostStr v6), if textKind (a.hostStr v6) = .other then a.hostStr v6 else []) := by
  cases a with
  | none => exact (by decide : (TextKind.other, ascii "<none>") =
      (textKind (ascii "<none>"), if textKind (ascii "<none>") = .other then ascii "<none>" else []))
  | ipv4 address => simp [label, hostStr, textKind_ip]
  | ipv6 ip port => simp [label, hostStr, textKind, v6.colon ip]
  | tor host port =>
    cases host with
    | none => exact (by decide : (TextKind.other, unknownTorHost) =
        (textKind unknownTorHost, if textKind unknownTorHost = .other then unknownTorHost else []))
    | some h => simp [label, hostStr, torText, textKind_tor]
  | i2p host =>
    cases host with
    | none => exact (by decide : (TextKind.other, unknownI2pHost) =
        (textKind unknownI2pHost, if textKind unknownI2pHost = .other then unknownI2pHost else []))
    | some h => simp [label, hostStr, i2pText, textKind_i2p]

theorem sameType_of_label {a b : NetworkAddress} (h : a.label = b.label) : a.sameType b = true := by
  have h₁ : ascii "<none>" ≠ unknownTorHost := by decide
  have h₂ : ascii "<none>" ≠ unknownI2pHost := by decide
  have h₃ : unknownTorHost ≠ unknownI2pHost := by decide
  rcases a with _ | _ | _ | ⟨_ | _, _⟩ | ⟨_ | _⟩ <;> rcases b with _ | _ | _ | ⟨_ | _, _⟩ | ⟨_ | _⟩ <;>
    simp_all [label, sameType, eq_comm]

theorem hostStr_eq_iff (v6 : V6Text) (a b : NetworkAddress) :
    a.hostStr v6 = b.hostStr v6 ↔ a.sameType b = true ∧ a.isSameHost b = true := by
  have hiff : a.sameType b = true → (a.hostStr v6 = b.hostStr v6 ↔ a.isSameHost b = true) := by
    intro hs
    cases a <;> cases b <;> simp [sameType] at hs <;>
      simp [hostStr, isSameHost, getIpStringFromInt32_injective.eq_iff, v6.injective.eq_iff]
  constructor
  · intro h
    have hs : a.sameType b = true := sameType_of_label (by rw [label_eq v6, label_eq v6 b, h])
    exact ⟨hs, (hiff hs).mp h⟩
  · rintro ⟨hs, h⟩
    exact (hiff hs).mpr h

end NetworkAddress

end Velkavo.Net
