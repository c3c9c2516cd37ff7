import Velkavo.Core.MinerTx
import Velkavo.TxPool.Pool

namespace Velkavo.TxPool

open Cryptonote BlockchainDb Velkavo.Core

def cryptonoteCoinbaseBlobReservedSize : UInt64 := 600

/-- What is computed by code that is not modelled here. `ready` gives the inputs of the object that the check may have
filled, and nothing for a transaction that cannot go into the next block. -/
structure FillFunctions where
  mineStemTxes : Bool
  ready : Hash → PoolRow → Option (List Txin)
  templateAcceptThreshold : UInt64 → UInt64

structure FilledTemplate where
  txHashes : List Hash
  totalWeight : UInt64
  fee : UInt64
  bestCoinbase : UInt64
  kImages : UnorderedSet KeyImage

def haveKeyImages (kImages : UnorderedSet KeyImage) : List Txin → Bool
  | [] => false
  | txin :: vin =>
    match keyImage? txin with
    | none => false
    | some image => decide (image ∈ kImages) || haveKeyImages kImages vin

/-- Stops at an input of another type, and at an image that is there. -/
def appendKeyImages (kImages : UnorderedSet KeyImage) : List Txin → UnorderedSet KeyImage
  | [] => kImages
  | txin :: vin =>
    match keyImage? txin with
    | none => kImages
    | some image => if image ∈ kImages then kImages else appendKeyImages (kImages.insert image) vin

namespace FilledTemplate

def consider (ready : Hash → PoolRow → Option (List Txin)) (txid : Hash) (row : PoolRow) (coinbase : UInt64)
    (t : FilledTemplate) : FilledTemplate :=
  match ready txid row with
  | none => t
  | some vin =>
    if haveKeyImages t.kImages vin then t
    else
      { txHashes := t.txHashes ++ [txid]
        totalWeight := t.totalWeight + UInt64.ofNat row.txMeta.weight
        fee := t.fee + row.txMeta.fee
        bestCoinbase := coinbase
        kImages := appendKeyImages t.kImages vin }

end FilledTemplate

namespace TxMemoryPool

section

variable (p : TxMemoryPool) (f : FillFunctions) (medianWeight alreadyGeneratedCoins : UInt64) (version : UInt8)

def maxTotalWeight : UInt64 :=
  if version ≥ 5 then 2 * medianWeight - cryptonoteCoinbaseBlobReservedSize
  else 130 * medianWeight / 100 - cryptonoteCoinbaseBlobReservedSize

def notMined (row : PoolRow) : Bool :=
  (!row.txMeta.relayMethod.matchesCategory .legacy && !(f.mineStemTxes && row.txMeta.relayMethod = .stem)) ||
    row.txMeta.pruned

def fillLoop : List SortedTx → FilledTemplate → FilledTemplate
  | [], t => t
  | it :: rest, t =>
    match p.table.find? it.txid with
    | none => fillLoop rest t
    | some row =>
      let weight := t.totalWeight + UInt64.ofNat row.txMeta.weight
      if notMined f row then fillLoop rest t
      else if maxTotalWeight medianWeight version < weight then fillLoop rest t
      else if version ≥ 5 then
        match getBlockReward medianWeight weight alreadyGeneratedCoins version with
        | none => fillLoop rest t
        | some blockReward =>
          let coinbase := blockReward + t.fee + row.txMeta.fee
          if coinbase < f.templateAcceptThreshold t.bestCoinbase then fillLoop rest t
          else fillLoop rest (t.consider f.ready it.txid row coinbase)
      else if t.totalWeight > medianWeight then t
      else fillLoop rest (t.consider f.ready it.txid row 0)

def fillBlockTemplate : Option FilledTemplate :=
  (getBlockReward medianWeight 0 alreadyGeneratedCoins version).map fun bestCoinbase =>
    p.fillLoop f medianWeight alreadyGeneratedCoins version p.txsByFeeAndReceiveTime ⟨[], 0, 0, bestCoinbase, ∅⟩

end

end TxMemoryPool

structure TxCosts where
  weight : Hash → UInt64
  fee : Hash → UInt64

namespace TxCosts

variable (r : TxCosts)

def totalWeight (ids : List Hash) : UInt64 := (ids.map r.weight).foldl (· + ·) 0

def totalFee (ids : List Hash) : UInt64 := (ids.map r.fee).foldl (· + ·) 0

def Of (p : TxMemoryPool) : Prop :=
  ∀ id row, p.table.find? id = some row → UInt64.ofNat row.txMeta.weight = r.weight id ∧ row.txMeta.fee = r.fee id

structure Totals (t : FilledTemplate) : Prop where
  weight : t.totalWeight = r.totalWeight t.txHashes
  fee : t.fee = r.totalFee t.txHashes

variable {r} {p : TxMemoryPool} {t : FilledTemplate} {f : FillFunctions} {median coins : UInt64} {version : UInt8}

theorem Totals.consider (h : r.Totals t) (hr : r.Of p) {txid : Hash} {row : PoolRow} (hrow : p.table.find? txid = some row)
    (ready : Hash → PoolRow → Option (List Txin)) (coinbase : UInt64) : r.Totals (t.consider ready txid row coinbase) := by
  rw [FilledTemplate.consider]
  cases ready txid row with
  | none => exact h
  | some vin =>
    dsimp only
    split_ifs
    · exact h
    · obtain ⟨hweight, hfee⟩ := hr txid row hrow
      constructor
      · rw [h.weight, hweight, totalWeight, totalWeight, List.map_append, List.foldl_append]
        rfl
      · rw [h.fee, hfee, totalFee, totalFee, List.map_append, List.foldl_append]
        rfl

theorem Totals.fillLoop (h : r.Totals t) (hr : r.Of p) (l : List SortedTx) :
    r.Totals (p.fillLoop f median coins version l t) := by
  induction l generalizing t with
  | nil => exact h
  | cons it rest ih =>
    rw [TxMemoryPool.fillLoop]
    cases hrow : p.table.find? it.txid with
    | none => exact ih h
    | some row =>
      dsimp only
      split
      · exact ih h
      split
      · exact ih h
      split
      · cases getBlockReward median (t.totalWeight + UInt64.ofNat row.txMeta.weight) coins version with
        | none => exact ih h
        | some blockReward =>
          dsimp only
          split
          · exact ih h
          · exact ih (h.consider hr hrow _ _)
      · split
        · exact h
        · exact ih (h.consider hr hrow _ _)

theorem totals_fillBlockTemplate (hr : r.Of p) (h : p.fillBlockTemplate f median coins version = some t) : r.Totals t := by
  obtain ⟨bestCoinbase, -, rfl⟩ := Option.map_eq_some_iff.mp h
  exact Totals.fillLoop ⟨rfl, rfl⟩ hr _

end TxCosts

end Velkavo.TxPool
