import Velkavo.Cryptonote.AccountAddress

namespace Velkavo.Cryptonote

open ByteCodec ByteCodec.Codec Base58

namespace AddressKind

def ofInfo (info : AddressParseInfo) : AddressKind :=
  match info.paymentId with
  | some paymentId => .integrated paymentId
  | none => if info.isSubaddress then .subaddress else .standard

theorem ofInfo_info (adr : AccountPublicAddress) (kind : AddressKind) : ofInfo (kind.info adr) = kind := by
  cases kind <;> rfl

theorem data_ne_nil (adr : AccountPublicAddress) (kind : AddressKind) : kind.data adr ≠ [] := by
  apply List.ne_nil_of_length_pos
  cases kind with
  | standard => exact (length_accountPublicAddress adr).symm ▸ Nat.succ_pos 63
  | subaddress => exact (length_accountPublicAddress adr).symm ▸ Nat.succ_pos 63
  | integrated paymentId => exact (length_integratedAddress ⟨adr, paymentId⟩).symm ▸ Nat.succ_pos 71

end AddressKind

theorem write_of_readAll {α : Type} {c : Codec α} (hc : c.read .accept = c.read .reject) {data : Bytes} {a : α}
    (h : readAll c .accept data = some a) : c.write a = data := by
  rw [readAll_eq_some, hc] at h
  have hdata := c.write_of_read h
  rw [List.append_nil] at hdata
  exact hdata.symm

namespace AddressCrypto

variable {crypto : AddressCrypto} {nettype : NetworkType} {str : Bytes} {info : AddressParseInfo}

theorem data_of_parseAddressData {tag : ℕ} {data : Bytes} (h : parseAddressData nettype tag data = some info) :
    ∃ kind : AddressKind, kind.tag nettype = tag ∧ kind.data info.address = data ∧ kind.info info.address = info := by
  rw [parseAddressData] at h
  split_ifs at h with hint hstd hsub
  · obtain ⟨a, ha, rfl⟩ := Option.map_eq_some_iff.mp h
    exact ⟨.integrated a.paymentId, hint, write_of_readAll rfl ha, rfl⟩
  · obtain ⟨a, ha, rfl⟩ := Option.map_eq_some_iff.mp h
    exact ⟨.standard, hstd, write_of_readAll rfl ha, rfl⟩
  · obtain ⟨a, ha, rfl⟩ := Option.map_eq_some_iff.mp h
    exact ⟨.subaddress, hsub, write_of_readAll rfl ha, rfl⟩

theorem asStr_of_getAccountAddressFromStr (hlen : str.length ≠ 2 * 66)
    (h : crypto.getAccountAddressFromStr nettype str = some info) :
    crypto.checkKey info.address.spendPublicKey = true ∧ crypto.checkKey info.address.viewPublicKey = true ∧
      crypto.asStr nettype info.address (.ofInfo info) = str ∧ (AddressKind.ofInfo info).info info.address = info := by
  rw [getAccountAddressFromStr, if_pos hlen.symm] at h
  cases hdecode : decodeAddr crypto.cnFastHash str with
  | none => rw [hdecode] at h; cases h
  | some x =>
    obtain ⟨tag, data⟩ := x
    rw [hdecode] at h
    obtain ⟨hparse, hkeys⟩ := Option.filter_eq_some_iff.mp h
    obtain ⟨kind, htag, hdata, hinfo⟩ := data_of_parseAddressData hparse
    have hkind : AddressKind.ofInfo info = kind := by
      rw [← hinfo]
      exact AddressKind.ofInfo_info _ kind
    rw [Bool.and_eq_true] at hkeys
    refine ⟨hkeys.1, hkeys.2, ?_, hkind ▸ hinfo⟩
    rw [hkind, asStr_eq, htag, hdata]
    exact encodeAddr_of_decodeAddr _ hdecode (hdata ▸ AddressKind.data_ne_nil _ kind)

def oldKeysChecked (crypto : AddressCrypto) (str : Bytes) : Bool :=
  match (fromHex str).map fun buff => (seq byte accountPublicAddress).read .accept buff with
  | some (some ((_, adr), _)) => crypto.checkKey adr.spendPublicKey && crypto.checkKey adr.viewPublicKey
  | _ => false

theorem oldKeysChecked_eq (h : parseOldAddress str = some info) : crypto.oldKeysChecked str =
    (crypto.checkKey info.address.spendPublicKey && crypto.checkKey info.address.viewPublicKey) := by
  rw [parseOldAddress] at h
  cases hhex : fromHex str with
  | none => rw [hhex] at h; cases h
  | some buff =>
    rw [hhex] at h
    dsimp only at h
    split at h
    · rename_i ver adr checkSum hread
      split_ifs at h
      cases h
      obtain ⟨mid, hver, hrest⟩ := read_dep_eq_some.mp hread
      obtain ⟨mid', hadr, -⟩ := read_dep_eq_some.mp hrest
      have hboth : (seq byte accountPublicAddress).read .accept buff = some ((ver, adr), mid') :=
        read_dep_eq_some.mpr ⟨mid, hver, hadr⟩
      rw [oldKeysChecked, hhex, Option.map_some, hboth]
    · cases h

def Faithful (crypto : AddressCrypto) (nettype : NetworkType) (str : Bytes) (info : AddressParseInfo) : Prop :=
  (crypto.checkKey info.address.spendPublicKey = true ∧ crypto.checkKey info.address.viewPublicKey = true) ∧
    (str.length ≠ 2 * 66 → crypto.asStr nettype info.address (.ofInfo info) = str)

theorem faithful_iff (h : crypto.getAccountAddressFromStr nettype str = some info) :
    crypto.Faithful nettype str info ↔ str.length ≠ 2 * 66 ∨ crypto.oldKeysChecked str = true := by
  by_cases hlen : str.length = 2 * 66
  · have hold : parseOldAddress str = some info := by
      rwa [getAccountAddressFromStr, if_neg (not_not.mpr hlen.symm)] at h
    rw [oldKeysChecked_eq hold, Bool.and_eq_true]
    exact ⟨fun hf => .inr hf.1, fun hor => ⟨hor.resolve_left (not_not.mpr hlen), fun hne => absurd hlen hne⟩⟩
  · obtain ⟨hspend, hview, hstr, -⟩ := asStr_of_getAccountAddressFromStr hlen h
    exact ⟨fun _ => .inl hlen, fun _ => ⟨⟨hspend, hview⟩, fun _ => hstr⟩⟩

theorem address_text_iff (crypto : AddressCrypto) (nettype : NetworkType) :
    (∀ str info, crypto.getAccountAddressFromStr nettype str = some info →
      (crypto.Faithful nettype str info ↔ str.length ≠ 2 * 66 ∨ crypto.oldKeysChecked str = true)) ∧
    (∀ adr kind, crypto.checkKey adr.spendPublicKey = true → crypto.checkKey adr.viewPublicKey = true →
      crypto.getAccountAddressFromStr nettype (crypto.asStr nettype adr kind) = some (kind.info adr)) ∧
    ∀ str str' info, str.length ≠ 2 * 66 → str'.length ≠ 2 * 66 →
      crypto.getAccountAddressFromStr nettype str = some info →
      crypto.getAccountAddressFromStr nettype str' = some info → str = str' := by
  refine ⟨fun str info h => faithful_iff h, fun adr kind hspend hview =>
    crypto.getAccountAddressFromStr_asStr nettype adr kind hspend hview, fun str str' info hlen hlen' h h' => ?_⟩
  obtain ⟨-, -, hstr, -⟩ := asStr_of_getAccountAddressFromStr hlen h
  obtain ⟨-, -, hstr', -⟩ := asStr_of_getAccountAddressFromStr hlen' h'
  rw [← hstr, hstr']

def refusing : AddressCrypto := ⟨fun _ => nullHash, fun _ => false⟩

def zeroAddress : Bytes := ascii (String.ofList (List.replicate 132 '0'))

theorem address_text_not_faithful : ∃ info, refusing.getAccountAddressFromStr .mainnet zeroAddress = some info ∧
    ¬refusing.Faithful .mainnet zeroAddress info := by
  have hsome : (refusing.getAccountAddressFromStr .mainnet zeroAddress).isSome = true := by decide +kernel
  obtain ⟨info, hinfo⟩ := Option.isSome_iff_exists.mp hsome
  refine ⟨info, hinfo, fun hf => ?_⟩
  have hkey : false = true := hf.1.1
  cases hkey

end AddressCrypto

end Velkavo.Cryptonote
