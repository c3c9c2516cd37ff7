import Mathlib.Data.UInt
import Velkavo.Cryptonote.FormatUtils
import Velkavo.Common.Base58

namespace Velkavo.Cryptonote

open ByteCodec ByteCodec.Codec Base58

abbrev Hash8 := Blob 8

structure AccountPublicAddress where
  spendPublicKey : PublicKey
  viewPublicKey : PublicKey
  deriving DecidableEq, Repr

structure IntegratedAddress where
  adr : AccountPublicAddress
  paymentId : Hash8
  deriving DecidableEq, Repr

def publicAddressBase58Prefix : NetworkType → ℕ
  | .testnet => 53
  | .stagenet => 24
  | _ => 249

def publicIntegratedAddressBase58Prefix : NetworkType → ℕ
  | .testnet => 54
  | .stagenet => 25
  | _ => 250

def publicSubaddressBase58Prefix : NetworkType → ℕ
  | .testnet => 63
  | .stagenet => 36
  | _ => 251

def accountPublicAddress : Codec AccountPublicAddress :=
  view (seq (blob 32) (blob 32)) (fun a => (a.spendPublicKey, a.viewPublicKey)) (fun x => ⟨x.1, x.2⟩)
    fun _ _ => rfl

def integratedAddress : Codec IntegratedAddress :=
  view (seq accountPublicAddress (blob 8)) (fun a => (a.adr, a.paymentId)) (fun x => ⟨x.1, x.2⟩)
    fun _ _ => rfl

instance : Exact accountPublicAddress := exact_view fun _ => rfl

instance : Exact integratedAddress := exact_view fun _ => rfl

structure AddressParseInfo where
  address : AccountPublicAddress
  isSubaddress : Bool
  paymentId : Option Hash8
  deriving DecidableEq, Repr

structure AddressCrypto where
  cnFastHash : Bytes → Hash
  checkKey : PublicKey → Bool

namespace AddressCrypto

variable (crypto : AddressCrypto)

def getAccountAddressAsStr (nettype : NetworkType) (subaddress : Bool) (adr : AccountPublicAddress) : Bytes :=
  encodeAddr crypto.cnFastHash
    (if subaddress then publicSubaddressBase58Prefix nettype else publicAddressBase58Prefix nettype)
    (accountPublicAddress.write adr)

def getAccountIntegratedAddressAsStr (nettype : NetworkType) (adr : AccountPublicAddress) (paymentId : Hash8) :
    Bytes :=
  encodeAddr crypto.cnFastHash (publicIntegratedAddressBase58Prefix nettype)
    (integratedAddress.write ⟨adr, paymentId⟩)

def parseAddressData (nettype : NetworkType) (tag : ℕ) (data : Bytes) : Option AddressParseInfo :=
  if publicIntegratedAddressBase58Prefix nettype = tag then
    (readAll integratedAddress .accept data).map fun a => ⟨a.adr, false, some a.paymentId⟩
  else if publicAddressBase58Prefix nettype = tag then
    (readAll accountPublicAddress .accept data).map fun a => ⟨a, false, none⟩
  else if publicSubaddressBase58Prefix nettype = tag then
    (readAll accountPublicAddress .accept data).map fun a => ⟨a, true, none⟩
  else none

def parseOldAddress (str : Bytes) : Option AddressParseInfo :=
  match fromHex str with
  | none => none
  | some buff =>
    match (seq byte (seq accountPublicAddress byte)).read .accept buff with
    | some ((ver, adr, checkSum), []) =>
      if ver > 0 then none
      else if checkSum ≠ (buff.take 65).sum then none
      else some ⟨adr, false, none⟩
    | _ => none

def getAccountAddressFromStr (nettype : NetworkType) (str : Bytes) : Option AddressParseInfo :=
  if 2 * 66 ≠ str.length then
    match decodeAddr crypto.cnFastHash str with
    | none => none
    | some (tag, data) =>
      (parseAddressData nettype tag data).filter fun info =>
        crypto.checkKey info.address.spendPublicKey && crypto.checkKey info.address.viewPublicKey
  else parseOldAddress str

end AddressCrypto

theorem length_accountPublicAddress (adr : AccountPublicAddress) :
    (accountPublicAddress.write adr).length = 64 := by
  simp [accountPublicAddress, view, seq, dep, blob, Blob.length_eq]

theorem length_integratedAddress (adr : IntegratedAddress) : (integratedAddress.write adr).length = 72 := by
  simp [integratedAddress, accountPublicAddress, view, seq, dep, blob, Blob.length_eq]

inductive AddressKind
  | standard
  | subaddress
  | integrated (paymentId : Hash8)
  deriving DecidableEq, Repr

namespace AddressKind

def tag (nettype : NetworkType) : AddressKind → ℕ
  | .standard => publicAddressBase58Prefix nettype
  | .subaddress => publicSubaddressBase58Prefix nettype
  | .integrated _ => publicIntegratedAddressBase58Prefix nettype

def data (adr : AccountPublicAddress) : AddressKind → Bytes
  | .integrated paymentId => integratedAddress.write ⟨adr, paymentId⟩
  | _ => accountPublicAddress.write adr

def info (adr : AccountPublicAddress) : AddressKind → AddressParseInfo
  | .standard => ⟨adr, false, none⟩
  | .subaddress => ⟨adr, true, none⟩
  | .integrated paymentId => ⟨adr, false, some paymentId⟩

end AddressKind

namespace AddressCrypto

variable (crypto : AddressCrypto)

def asStr (nettype : NetworkType) (adr : AccountPublicAddress) : AddressKind → Bytes
  | .standard => crypto.getAccountAddressAsStr nettype false adr
  | .subaddress => crypto.getAccountAddressAsStr nettype true adr
  | .integrated paymentId => crypto.getAccountIntegratedAddressAsStr nettype adr paymentId

theorem asStr_eq (nettype : NetworkType) (adr : AccountPublicAddress) (kind : AddressKind) :
    crypto.asStr nettype adr kind = encodeAddr crypto.cnFastHash (kind.tag nettype) (kind.data adr) := by
  cases kind <;> rfl

theorem length_tag (nettype : NetworkType) (kind : AddressKind) :
    (writeVarint (kind.tag nettype)).length =
      match nettype with
      | .testnet | .stagenet => 1
      | .mainnet | .fakechain => 2 := by
  cases kind with
  | standard => cases nettype <;> rfl
  | subaddress => cases nettype <;> rfl
  | integrated paymentId =>
    change (writeVarint (publicIntegratedAddressBase58Prefix nettype)).length = _
    cases nettype <;> rfl

theorem length_asStr (nettype : NetworkType) (adr : AccountPublicAddress) (kind : AddressKind) :
    (crypto.asStr nettype adr kind).length =
      match nettype, kind with
      | .testnet, .integrated _ | .stagenet, .integrated _ => 106
      | .testnet, _ | .stagenet, _ => 95
      | _, .integrated _ => 108
      | _, _ => 97 := by
  rw [asStr_eq, length_encodeAddr, length_tag]
  cases nettype <;> cases kind <;>
    simp [AddressKind.data, length_accountPublicAddress, length_integratedAddress, encodedBlockSize,
      encodedBlockSizes]

theorem parseAddressData_data (nettype : NetworkType) (adr : AccountPublicAddress) (kind : AddressKind) :
    parseAddressData nettype (kind.tag nettype) (kind.data adr) = some (kind.info adr) := by
  have hadr := readAll_write accountPublicAddress .accept (a := adr) rfl
  cases kind with
  | standard => cases nettype <;> simp [parseAddressData, AddressKind.tag, AddressKind.data, hadr,
      publicIntegratedAddressBase58Prefix, publicAddressBase58Prefix, AddressKind.info]
  | subaddress => cases nettype <;> simp [parseAddressData, AddressKind.tag, AddressKind.data, hadr,
      publicIntegratedAddressBase58Prefix, publicAddressBase58Prefix, publicSubaddressBase58Prefix,
      AddressKind.info]
  | integrated paymentId =>
    have hint := readAll_write integratedAddress .accept (a := ⟨adr, paymentId⟩) rfl
    simp [parseAddressData, AddressKind.tag, AddressKind.data, hint, AddressKind.info]

theorem getAccountAddressFromStr_asStr (nettype : NetworkType) (adr : AccountPublicAddress)
    (kind : AddressKind) (hspend : crypto.checkKey adr.spendPublicKey = true)
    (hview : crypto.checkKey adr.viewPublicKey = true) :
    crypto.getAccountAddressFromStr nettype (crypto.asStr nettype adr kind) = some (kind.info adr) := by
  have hlen : 2 * 66 ≠ (crypto.asStr nettype adr kind).length := by
    rw [length_asStr]
    cases nettype <;> cases kind <;> simp
  have htag : kind.tag nettype < 2 ^ 64 := by
    cases nettype <;> cases kind <;> simp [AddressKind.tag, publicAddressBase58Prefix,
      publicSubaddressBase58Prefix, publicIntegratedAddressBase58Prefix]
  rw [getAccountAddressFromStr, if_pos hlen, asStr_eq, decodeAddr_encodeAddr _ htag]
  dsimp only
  rw [parseAddressData_data, Option.filter_some, if_pos]
  cases kind <;> simp [AddressKind.info, hspend, hview]

theorem mem_alphabet_of_mem_asStr {nettype : NetworkType} {adr : AccountPublicAddress} {kind : AddressKind}
    {c : UInt8} (h : c ∈ crypto.asStr nettype adr kind) : c ∈ alphabet := by
  rw [asStr_eq, encodeAddr] at h
  exact mem_alphabet_of_mem_encode h

end AddressCrypto

end Velkavo.Cryptonote
