import Velkavo.Cryptonote.AccountAddress

namespace Velkavo.OpenAlias

open ByteCodec Cryptonote

def oa1 : Bytes := ascii "oa1:xmr"

def recipientAddress : Bytes := ascii "recipient_address="

def semicolon : Bytes := ascii ";"

def addressFromTxtRecord (s : Bytes) : Bytes :=
  match find oa1 s with
  | none => []
  | some pos =>
    match findFrom recipientAddress s pos with
    | none => []
    | some pos =>
      let pos := pos + 18
      match findFrom semicolon s pos with
      | none => []
      | some pos2 =>
        if pos2 - pos = 95 then (s.drop pos).take 95
        else if pos2 - pos = 106 then (s.drop pos).take 106
        else []

structure TxtRecord where
  before : Bytes
  between : Bytes
  after : Bytes
  before_oa1 : ¬ oa1 <:+: before
  between_recipient : ¬ recipientAddress <:+: between

def TxtRecord.text (r : TxtRecord) (addr : Bytes) : Bytes :=
  r.before ++ (oa1 ++ (ascii " " ++ r.between ++ (recipientAddress ++ (addr ++ (semicolon ++ r.after)))))

theorem recipient_not_in_head {text : Bytes} (h : ¬ recipientAddress <:+: text) :
    ¬ recipientAddress <:+: oa1 ++ (ascii " " ++ text) := by
  have hoa1 : oa1 = [0x6f, 0x61, 0x31, 0x3a, 0x78, 0x6d, 0x72] := by decide
  have hblank : ascii " " = [0x20] := by decide
  have hpat : recipientAddress = 0x72 :: 0x65 :: recipientAddress.drop 2 := by decide
  -- the text before holds one `r`, and it is followed by a blank
  rw [hoa1, hblank]
  simp only [List.cons_append, List.nil_append, List.infix_cons_iff, h, or_false]
  rw [hpat]
  simp [List.cons_prefix_cons]

theorem addressFromTxtRecord_text (r : TxtRecord) {addr : Bytes} (haddr : 0x3b ∉ addr) :
    addressFromTxtRecord (r.text addr) = if addr.length = 95 ∨ addr.length = 106 then addr else [] := by
  set head := oa1 ++ (ascii " " ++ r.between) with hhead
  set tail := addr ++ (semicolon ++ r.after) with htail
  have htext : r.text addr = r.before ++ (head ++ (recipientAddress ++ tail)) := by
    rw [TxtRecord.text, hhead, htail, List.append_assoc oa1]
  have hpos : (r.before ++ (head ++ recipientAddress)).length = head.length + r.before.length + 18 := by
    have hrec : recipientAddress.length = 18 := by decide
    rw [List.length_append, List.length_append, hrec]
    omega
  have hsplit : r.text addr = r.before ++ (head ++ recipientAddress) ++ tail := by
    rw [htext, List.append_assoc r.before, List.append_assoc head]
  have hfind : find oa1 (r.text addr) = some r.before.length := by
    rw [htext, hhead, List.append_assoc oa1]
    exact find_append (by decide) (by decide) r.before_oa1 _
  have hrecipient : findFrom recipientAddress (r.text addr) r.before.length =
      some (head.length + r.before.length) := by
    rw [htext, findFrom_append, find_append (by decide) (by decide)
      (recipient_not_in_head r.between_recipient)]
    rfl
  have hsemicolon : findFrom semicolon (r.text addr) (head.length + r.before.length + 18) =
      some (addr.length + (head.length + r.before.length + 18)) := by
    have hno : ¬ semicolon <:+: addr := fun h => haddr (h.subset (by decide))
    rw [hsplit, ← hpos, findFrom_append, htail, find_append (by decide) (by decide) hno]
    rfl
  have hdrop : (r.text addr).drop (head.length + r.before.length + 18) = tail := by
    rw [hsplit, ← hpos, List.drop_left]
  rw [addressFromTxtRecord, hfind]
  dsimp only
  rw [hrecipient]
  dsimp only
  rw [hsemicolon, hdrop]
  dsimp only
  rw [Nat.add_sub_cancel]
  have htake : ∀ n, addr.length = n → tail.take n = addr := fun n hn => by rw [← hn, htail, List.take_left]
  by_cases h95 : addr.length = 95
  · rw [if_pos h95, if_pos (.inl h95), htake 95 h95]
  · by_cases h106 : addr.length = 106
    · rw [if_neg h95, if_pos h106, if_pos (.inr h106), htake 106 h106]
    · rw [if_neg h95, if_neg h106, if_neg (by omega)]

theorem semicolon_notMem_asStr (crypto : AddressCrypto) (nettype : NetworkType) (adr : AccountPublicAddress)
    (kind : AddressKind) : 0x3b ∉ crypto.asStr nettype adr kind := fun h =>
  absurd (crypto.mem_alphabet_of_mem_asStr h) (by decide)

theorem addressFromTxtRecord_mainnet (crypto : AddressCrypto) (adr : AccountPublicAddress)
    (kind : AddressKind) (r : TxtRecord) :
    addressFromTxtRecord (r.text (crypto.asStr .mainnet adr kind)) = [] ∧
      addressFromTxtRecord (r.text (crypto.asStr .mainnet adr kind)) ≠ crypto.asStr .mainnet adr kind := by
  have hlen := crypto.length_asStr .mainnet adr kind
  have hempty : addressFromTxtRecord (r.text (crypto.asStr .mainnet adr kind)) = [] := by
    rw [addressFromTxtRecord_text r (semicolon_notMem_asStr crypto .mainnet adr kind), if_neg]
    rw [hlen]
    cases kind <;> simp
  refine ⟨hempty, fun h => ?_⟩
  rw [← h, hempty] at hlen
  cases kind <;> simp at hlen

def plainCrypto : AddressCrypto := ⟨fun _ => Blob.zero 32, fun _ => true⟩

def plainRecord : TxtRecord := ⟨[], [], [], by decide, by decide⟩

theorem addressFromTxtRecord_plain :
    addressFromTxtRecord (plainRecord.text
      (plainCrypto.getAccountAddressAsStr .mainnet false ⟨Blob.zero 32, Blob.zero 32⟩)) = [] ∧
    (plainCrypto.getAccountAddressAsStr .mainnet false ⟨Blob.zero 32, Blob.zero 32⟩).length = 97 := by
  decide +kernel

end Velkavo.OpenAlias
