import Velkavo.Cryptonote.TxExtra
import Velkavo.Wallet.Subaddresses

namespace Velkavo.Wallet

open ByteCodec Cryptonote Effects

inductive WalletError
  | walletInternalError (message : String)
  | lengthError
  deriving DecidableEq, Repr

structure TransferDetails where
  tx : TransactionPrefix
  internalOutputIndex : UInt64
  globalOutputIndex : UInt64
  spent : Bool
  frozen : Bool
  keyImage : Blob 32
  amount : UInt64
  rct : Bool
  keyImageKnown : Bool
  keyImageRequest : Bool
  pkIndex : UInt64
  subaddrIndex : SubaddressIndex
  keyImagePartial : Bool
  uses : List (UInt64 × Hash)

structure ExportedTransferDetails where
  pubkey : PublicKey
  internalOutputIndex : UInt64
  globalOutputIndex : UInt64
  txPubkey : PublicKey
  spent : Bool
  frozen : Bool
  rct : Bool
  keyImageKnown : Bool
  keyImageRequest : Bool
  keyImagePartial : Bool
  amount : UInt64
  additionalTxKeys : List PublicKey
  subaddrIndexMajor : UInt32
  subaddrIndexMinor : UInt32

def findTxExtraFieldByType {α : Type} (select : TxExtraField → Option α) (fields : List TxExtraField) (index : ℕ) : Option α :=
  (fields.filterMap select)[index]?

def getTxPubKeyFromExtra (tx : TransactionPrefix) (pkIndex : UInt64) : PublicKey :=
  (findTxExtraFieldByType (fun | .pubKey key => some key | _ => none) (parseTxExtra tx.extra).2 pkIndex.toNat).getD (Blob.zero 32)

def getAdditionalTxPubKeysFromExtra (tx : TransactionPrefix) : List PublicKey :=
  (findTxExtraFieldByType (fun | .additionalPubKeys data => some data | _ => none) (parseTxExtra tx.extra).2 0).getD []

namespace TransferDetails

def getPublicKey (td : TransferDetails) : Except WalletError PublicKey :=
  match td.tx.vout[td.internalOutputIndex.toNat]? with
  | none => .error (.walletInternalError "Too few outputs, outputs may be corrupted")
  | some out =>
    match getOutputPublicKey out with
    | none => .error (.walletInternalError "Unable to get output public key from output")
    | some key => .ok key

def exported (td : TransferDetails) : Except WalletError ExportedTransferDetails := do
  let pubkey ← td.getPublicKey
  pure {
    pubkey
    txPubkey := getTxPubKeyFromExtra td.tx td.pkIndex
    internalOutputIndex := td.internalOutputIndex
    globalOutputIndex := td.globalOutputIndex
    spent := td.spent
    frozen := td.frozen
    rct := td.rct
    keyImageKnown := td.keyImageKnown
    keyImageRequest := td.keyImageRequest
    keyImagePartial := td.keyImagePartial
    amount := td.amount
    additionalTxKeys := getAdditionalTxPubKeysFromExtra td.tx
    subaddrIndexMajor := td.subaddrIndex.major
    subaddrIndexMinor := td.subaddrIndex.minor }

end TransferDetails

def exportedMaxSize : ℕ := (2 ^ 63 - 1) / 128

structure TransferContainer where
  transfers : List TransferDetails
  fits : transfers.length ≤ exportedMaxSize
  keyed : ∀ td ∈ transfers, ∃ key, td.getPublicKey = .ok key

def exportLoop (count offset : ℕ) : ℕ → List TransferDetails → Except WalletError (List ExportedTransferDetails)
  | _, [] => .ok []
  | n, td :: rest =>
    if n - offset < count then do
      let etd ← td.exported
      let outs ← exportLoop count offset (n + 1) rest
      pure (etd :: outs)
    else .ok []

def exportOutputs (t : TransferContainer) (all : Bool) (start count : UInt32) :
    Except WalletError (ℕ × ℕ × List ExportedTransferDetails) := do
  checkThrow (count ≠ 0) (.walletInternalError "Nothing requested")
  checkThrow (all ∨ start = 0) (.walletInternalError "Incremental mode is incompatible with non-zero start")
  let offset :=
    if all then start.toNat else (t.transfers.takeWhile fun td => td.keyImageKnown && !td.keyImageRequest).length
  -- reserve() throws for more than max_size(), and its argument is an unsigned difference
  checkThrow ((UInt64.ofNat t.transfers.length - UInt64.ofNat offset).toNat ≤ exportedMaxSize) .lengthError
  let outs ← exportLoop count.toNat offset offset (t.transfers.drop offset)
  pure (offset, t.transfers.length, outs)

def exportPages (t : TransferContainer) : UInt32 → List UInt32 → Except WalletError (List ExportedTransferDetails)
  | _, [] => .ok []
  | start, count :: counts => do
    let page ← exportOutputs t true start count
    let rest ← exportPages t (start + count) counts
    pure (page.2.2 ++ rest)

def pagesSize (counts : List UInt32) : ℕ := (counts.map UInt32.toNat).sum

@[simp]
theorem pagesSize_cons (count : UInt32) (counts : List UInt32) :
    pagesSize (count :: counts) = count.toNat + pagesSize counts := rfl

def Exports (l : List TransferDetails) (outs : List ExportedTransferDetails) : Prop :=
  List.Forall₂ (fun td out => td.exported = .ok out) l outs

theorem exists_exports {l : List TransferDetails} (h : ∀ td ∈ l, ∃ key, td.getPublicKey = .ok key) : ∃ outs, Exports l outs := by
  induction l with
  | nil => exact ⟨[], .nil⟩
  | cons td l ih =>
    obtain ⟨outs, houts⟩ := ih fun td' hmem => h td' (List.mem_cons_of_mem _ hmem)
    obtain ⟨key, hkey⟩ := h td List.mem_cons_self
    have hexported : ∃ out, td.exported = .ok out := by
      rw [TransferDetails.exported, hkey]
      exact ⟨_, rfl⟩
    obtain ⟨out, hout⟩ := hexported
    exact ⟨out :: outs, .cons hout houts⟩

variable {t : TransferContainer} {outs : List ExportedTransferDetails}

theorem exportLoop_eq {l : List TransferDetails} (h : Exports l outs) (count : ℕ) {offset n : ℕ} (hn : offset ≤ n) :
    exportLoop count offset n l = .ok (outs.take (count - (n - offset))) := by
  induction h generalizing n with
  | nil => rw [exportLoop, List.take_nil]
  | @cons td out l outs htd _ ih =>
    rw [exportLoop]
    split_ifs with hlt
    · rw [htd, ih (Nat.le_succ_of_le hn), show count - (n - offset) = count - (n + 1 - offset) + 1 by omega]
      rfl
    · rw [Nat.sub_eq_zero_of_le (Nat.le_of_not_lt hlt), List.take_zero]

theorem lt_exportedMaxSize_of_lt {n start : ℕ} (hstart : start < 2 ^ 32) (h : n < start) :
    exportedMaxSize < (UInt64.ofNat n - UInt64.ofNat start).toNat := by
  have hmax : exportedMaxSize = 72057594037927935 := rfl
  rw [UInt64.toNat_sub, UInt64.toNat_ofNat_of_lt' (Nat.lt_trans h (Nat.lt_trans hstart (by decide))),
    UInt64.toNat_ofNat_of_lt' (Nat.lt_trans hstart (by decide)), hmax]
  omega

theorem le_exportedMaxSize_of_le {n start : ℕ} (hn : n ≤ exportedMaxSize) (h : start ≤ n) :
    (UInt64.ofNat n - UInt64.ofNat start).toNat ≤ exportedMaxSize := by
  have hsize : n < 2 ^ 64 := Nat.lt_of_le_of_lt hn (by decide)
  rw [UInt64.toNat_sub, UInt64.toNat_ofNat_of_lt' hsize, UInt64.toNat_ofNat_of_lt' (Nat.lt_of_le_of_lt h hsize)]
  omega

theorem exportOutputs_all {count : UInt32} (hcount : count ≠ 0) (start : UInt32) :
    exportOutputs t true start count =
      if (UInt64.ofNat t.transfers.length - UInt64.ofNat start.toNat).toNat ≤ exportedMaxSize then
        (exportLoop count.toNat start.toNat start.toNat (t.transfers.drop start.toNat)).map
          fun outs => (start.toNat, t.transfers.length, outs)
      else .error .lengthError := by
  simp only [exportOutputs, checkThrow, if_pos hcount, true_or, if_true]
  by_cases hle : (UInt64.ofNat t.transfers.length - UInt64.ofNat start.toNat).toNat ≤ exportedMaxSize
  · rw [if_pos hle, if_pos hle]
    cases exportLoop count.toNat start.toNat start.toNat (t.transfers.drop start.toNat) <;> rfl
  · rw [if_neg hle, if_neg hle]
    rfl

theorem exportOutputs_of_le (h : Exports t.transfers outs) {start count : UInt32} (hcount : count ≠ 0)
    (hle : start.toNat ≤ t.transfers.length) :
    exportOutputs t true start count = .ok (start.toNat, t.transfers.length, (outs.drop start.toNat).take count.toNat) := by
  rw [exportOutputs_all hcount, if_pos (le_exportedMaxSize_of_le t.fits hle)]
  rw [exportLoop_eq (List.forall₂_drop start.toNat h) _ (Nat.le_refl _), Nat.sub_self]
  rfl

theorem exportOutputs_of_lt {start count : UInt32} (hcount : count ≠ 0) (hlt : t.transfers.length < start.toNat) :
    exportOutputs t true start count = .error .lengthError := by
  rw [exportOutputs_all hcount, if_neg (Nat.not_le_of_lt (lt_exportedMaxSize_of_lt start.toNat_lt hlt))]

def PagesStart (n start : ℕ) (counts : List UInt32) : Prop := ∀ k < counts.length, start + pagesSize (counts.take k) ≤ n

theorem pagesStart_cons {n start : ℕ} {count : UInt32} {counts : List UInt32} :
    PagesStart n start (count :: counts) ↔ start ≤ n ∧ PagesStart n (start + count.toNat) counts := by
  constructor
  · intro h
    refine ⟨h 0 (Nat.succ_pos _), fun k hk => ?_⟩
    have hnext := h (k + 1) (Nat.succ_lt_succ hk)
    rwa [List.take_succ_cons, pagesSize_cons, ← Nat.add_assoc] at hnext
  · rintro ⟨hstart, hrest⟩ k hk
    cases k with
    | zero => exact hstart
    | succ k =>
      rw [List.take_succ_cons, pagesSize_cons, ← Nat.add_assoc]
      exact hrest k (Nat.lt_of_succ_lt_succ hk)

theorem exportPages_eq (h : Exports t.transfers outs) (counts : List UInt32) (start : UInt32)
    (hcounts : ∀ count ∈ counts, count ≠ 0) (hsize : start.toNat + pagesSize counts < 2 ^ 32) :
    (PagesStart t.transfers.length start.toNat counts →
        exportPages t start counts = .ok ((outs.drop start.toNat).take (pagesSize counts))) ∧
      (¬PagesStart t.transfers.length start.toNat counts → exportPages t start counts = .error .lengthError) := by
  induction counts generalizing start with
  | nil => exact ⟨fun _ => rfl, fun hnot => absurd (fun k hk => absurd hk (Nat.not_lt_zero k)) hnot⟩
  | cons count counts ih =>
    rw [pagesSize_cons] at hsize
    have hnext : (start + count).toNat = start.toNat + count.toNat := by
      rw [UInt32.toNat_add]
      exact Nat.mod_eq_of_lt (by omega)
    have hrest := ih (start + count) (fun c hc => hcounts c (List.mem_cons_of_mem _ hc)) (by omega)
    rw [hnext] at hrest
    have hcount := hcounts count List.mem_cons_self
    rw [pagesStart_cons, exportPages]
    by_cases hle : start.toNat ≤ t.transfers.length
    · rw [exportOutputs_of_le h hcount hle]
      refine ⟨fun hpages => ?_, fun hnot => ?_⟩
      · rw [hrest.1 hpages.2, pagesSize_cons, List.take_add, List.drop_drop]
        rfl
      · rw [hrest.2 fun hpages => hnot ⟨hle, hpages⟩]
        rfl
    · rw [exportOutputs_of_lt hcount (Nat.lt_of_not_le hle)]
      exact ⟨fun hpages => absurd hpages.1 hle, fun _ => rfl⟩

theorem export_outputs_iff (t : TransferContainer) :
    ∃ outs, Exports t.transfers outs ∧
      (∀ start count : UInt32, count ≠ 0 →
        (exportOutputs t true start count =
            .ok (start.toNat, t.transfers.length, (outs.drop start.toNat).take count.toNat) ↔
          start.toNat ≤ t.transfers.length)) ∧
      ∀ counts : List UInt32, (∀ count ∈ counts, count ≠ 0) → pagesSize counts < 2 ^ 32 →
        (exportPages t 0 counts = .ok (outs.take (pagesSize counts)) ↔ PagesStart t.transfers.length 0 counts) := by
  obtain ⟨outs, houts⟩ := exists_exports t.keyed
  refine ⟨outs, houts, fun start count hcount => ⟨fun hok => ?_, exportOutputs_of_le houts hcount⟩,
    fun counts hcounts hsize => ?_⟩
  · by_contra hlt
    rw [exportOutputs_of_lt hcount (Nat.lt_of_not_le hlt)] at hok
    cases hok
  · obtain ⟨hpages, hnot⟩ := exportPages_eq houts counts 0 hcounts (by rwa [UInt32.toNat_zero, Nat.zero_add])
    refine ⟨fun hok => ?_, hpages⟩
    by_contra hstart
    rw [hnot hstart] at hok
    cases hok

theorem export_past_end : exportOutputs ⟨[], Nat.zero_le _, fun _ hmem => absurd hmem List.not_mem_nil⟩ true 1 1 =
    .error .lengthError := rfl

end Velkavo.Wallet
