import Velkavo.Containers.SortedTable
import Velkavo.Effects.Checks
import Velkavo.Cryptonote.BlockHash
import Velkavo.Cryptonote.FormatUtils
import Mathlib.Data.Prod.Lex

/-! The tables of the database. A table with a dummy key is sorted by the first field of its rows, which is the key here. -/

namespace Velkavo.BlockchainDb

open Cryptonote ByteCodec Effects

inductive DbError
  | blockExists
  | blockParentDne
  | blockDne
  | txExists
  | txDne
  | keyImageExists
  | outputDne
  | dbError
  | runtimeError
  /-- The source reads memory that it did not write. -/
  | undefined
  deriving DecidableEq

/-- `compare_hash32` takes the last word of a hash as the most significant one. -/
def hashKey (h : Hash) : ℕ := ofLittleEndian h.bytes

theorem hashKey_injective : Function.Injective hashKey := by
  rintro ⟨a, ha⟩ ⟨b, hb⟩ h
  have hbytes : a = b := by
    rw [← littleEndian_ofLittleEndian a, ← littleEndian_ofLittleEndian b, ha, hb]
    exact congrArg (littleEndian 32) h
  cases hbytes
  rfl

def dupKey (k : ℕ × ℕ) : Lex (ℕ × ℕ) := toLex k

theorem dupKey_injective : Function.Injective dupKey := toLex.injective

abbrev ById (ν : Type) := OrderedMap (id : ℕ → ℕ) ν

abbrev ByHash (ν : Type) := OrderedMap hashKey ν

abbrev WithDups (ν : Type) := OrderedMap dupKey ν

structure MdbBlockInfo where
  timestamp : UInt64
  coins : UInt64
  weight : UInt64
  diff : BitVec 128
  hash : Hash
  cumRct : ℕ
  longTermBlockWeight : UInt64

structure TxData where
  txId : ℕ
  unlockTime : UInt64
  blockId : ℕ
  deriving DecidableEq

structure OutTx where
  txHash : Hash
  localIndex : ℕ

structure OutKey where
  outputId : ℕ
  pubkey : PublicKey
  unlockTime : UInt64
  height : ℕ
  commitment : Option Rct.Key

structure OutputTables where
  outputTxs : ById OutTx
  outputAmounts : WithDups OutKey

structure Db where
  blocks : ById Bytes
  blockInfo : ById MdbBlockInfo
  blockHeights : ByHash ℕ
  txIndices : ByHash TxData
  txsPruned : ById Bytes
  txsPrunable : ById Bytes
  txsPrunableHash : ById Hash
  txsPrunableTip : WithDups Unit
  txOutputs : ById (List ℕ)
  outs : OutputTables
  spentKeys : ByHash Unit
  pruningSeed : Option UInt32

structure DbFunctions extends HashFunctions where
  getTransactionPrunableHash : Transaction → Bytes → Hash
  zeroCommit : UInt64 → Rct.Key
  scalarmultInvEight : Rct.Key → Rct.Key

def orThrow {α : Type} (e : DbError) : Option α → Except DbError α
  | none => .error e
  | some a => .ok a

def maxDataSize : ℕ := 0xffffffff

def isGen : Txin → Bool
  | .gen _ => true
  | _ => false

namespace Db

def empty (pruningSeed : Option UInt32) : Db := ⟨∅, ∅, ∅, ∅, ∅, ∅, ∅, ∅, ∅, ⟨∅, ∅⟩, ∅, pruningSeed⟩

variable (db : Db)

def height : ℕ := db.blocks.size

def getTxCount : ℕ := db.txsPruned.size

def getBlockchainPruningSeed : UInt32 := db.pruningSeed.getD 0

section

def addSpentKey (kImage : KeyImage) : Except DbError Db := do
  checkThrow (db.spentKeys.find? kImage = none) .keyImageExists
  .ok { db with spentKeys := db.spentKeys.assign kImage () }

def addInput (db : Db) : Txin → Except DbError Db
  | .toKey txin => db.addSpentKey txin.kImage
  | .gen _ => .ok db
  | _ => .error .runtimeError

def putBlob (table : ById Bytes) (id : ℕ) (blob : Bytes) : Except DbError (ById Bytes) := do
  checkThrow (blob.length ≤ maxDataSize) .dbError
  orThrow .dbError (table.append id blob)

def unprunableLength (tx : Transaction) : ℕ :=
  if unprunableSize tx = 0 then (transactionBase.write tx).length % 2 ^ 32 else (unprunableSize tx).toNat

def putTip (txId : ℕ) : WithDups Unit :=
  if db.getBlockchainPruningSeed = 0 then db.txsPrunableTip else db.txsPrunableTip.assign (txId, db.height) ()

def putPrunableHash (tx : Transaction) (txId : ℕ) (prunableHash : Hash) : Except DbError (ById Hash) :=
  if tx.version > 1 then orThrow .dbError (db.txsPrunableHash.append txId prunableHash) else .ok db.txsPrunableHash

def addTransactionData (tx : Transaction) (blob : Bytes) (txHash prunableHash : Hash) : Except DbError Db := do
  checkThrow (db.txIndices.find? txHash = none) .txExists
  checkThrow (unprunableLength tx ≤ blob.length) .dbError
  let pruned ← putBlob db.txsPruned db.getTxCount (blob.take (unprunableLength tx))
  let prunable ← putBlob db.txsPrunable db.getTxCount (blob.drop (unprunableLength tx))
  let hashes ← db.putPrunableHash tx db.getTxCount prunableHash
  .ok { db with
    txIndices := db.txIndices.assign txHash ⟨db.getTxCount, tx.unlockTime, db.height⟩
    txsPruned := pruned
    txsPrunable := prunable
    txsPrunableTip := db.putTip db.getTxCount
    txsPrunableHash := hashes }

end

end Db

namespace OutputTables

variable (outs : OutputTables)

def numOutputs : ℕ := (outs.outputTxs.entries.getLast?.map fun x => x.1 + 1).getD 0

def amountCount (amount : UInt64) : ℕ := (outs.outputAmounts.entries.filter fun x => x.1.1 = amount.toNat).length

def appendDup (amount : UInt64) (index : ℕ) (row : OutKey) : Option (WithDups OutKey) :=
  if ∀ x ∈ outs.outputAmounts.entries, x.1.1 = amount.toNat → x.1.2 < index then
    some (outs.outputAmounts.assign (amount.toNat, index) row)
  else none

def addOutput (height : ℕ) (txHash : Hash) (out : TxOut) (localIndex : ℕ) (unlockTime : UInt64)
    (commitment : Option Rct.Key) : Except DbError (ℕ × OutputTables) := do
  let pubkey ← orThrow .dbError (getOutputPublicKey out)
  checkThrow (¬(out.amount = 0 ∧ commitment = none)) .dbError
  let outputTxs ← orThrow .dbError (outs.outputTxs.append outs.numOutputs ⟨txHash, localIndex⟩)
  let outputAmounts ← orThrow .dbError (outs.appendDup out.amount (outs.amountCount out.amount)
    ⟨outs.numOutputs, pubkey, unlockTime, height, if out.amount = 0 then commitment else none⟩)
  .ok (outs.amountCount out.amount, ⟨outputTxs, outputAmounts⟩)

end OutputTables

variable (k : DbFunctions)

/-- Coinbase outputs of version 2 are stored without an amount, with a commitment anyone can compute. -/
def storedOutput (tx : Transaction) (i : ℕ) (out : TxOut) : Except DbError (TxOut × Option Rct.Key) :=
  if tx.vin.any isGen && tx.version = 2 then .ok ({ out with amount := 0 }, some (k.zeroCommit out.amount))
  else if tx.version > 1 then
    (orThrow .undefined tx.rctSignatures.outPk[i]?).map fun key => (out, some key.mask)
  else .ok (out, none)

def addOutputs (height : ℕ) (txHash : Hash) (tx : Transaction) :
    ℕ → List TxOut → OutputTables → Except DbError (List ℕ × OutputTables)
  | _, [], outs => .ok ([], outs)
  | i, out :: rest, outs => do
    let stored ← storedOutput k tx i out
    let (index, outs) ← outs.addOutput height txHash stored.1 i tx.unlockTime stored.2
    let (indices, outs) ← addOutputs height txHash tx (i + 1) rest outs
    .ok (index :: indices, outs)

namespace Db

variable (db : Db)

def addTransaction (tx : Transaction) (blob : Bytes) (txHash : Hash) : Except DbError Db := do
  let db ← tx.vin.foldlM addInput db
  let txId := db.getTxCount
  let db ← db.addTransactionData tx blob txHash (k.getTransactionPrunableHash tx blob)
  let (indices, outs) ← addOutputs k db.height txHash tx 0 tx.vout db.outs
  checkThrow (8 * indices.length ≤ maxDataSize) .dbError
  let txOutputs ← orThrow .dbError (db.txOutputs.append txId indices)
  .ok { db with outs := outs, txOutputs := txOutputs }

def addTransactions : List Hash → List (Transaction × Bytes) → Db → Except DbError Db
  | txHash :: hashes, (tx, blob) :: txs, db => do
    let db ← db.addTransaction k tx blob txHash
    addTransactions hashes txs db
  | _, _, db => .ok db

def checkParent (blk : Block) : Except DbError Unit :=
  if db.height = 0 then .ok ()
  else
    match db.blockHeights.find? blk.prevId with
    | none => .error .dbError
    | some prev => checkThrow (prev = db.height - 1) .blockParentDne

def cumRct (blk : Block) (numRctOuts : ℕ) : Except DbError ℕ :=
  if blk.majorVersion ≥ 4 then
    (orThrow .blockDne (if db.height = 0 then none else db.blockInfo.find? (db.height - 1))).map
      fun prev => numRctOuts + prev.cumRct
  else .ok numRctOuts

structure Metadata where
  blockWeight : UInt64
  longTermBlockWeight : UInt64
  cumulativeDifficulty : BitVec 128
  coinsGenerated : UInt64

def addBlockRow (blk : Block) (data : Metadata) (numRctOuts : ℕ) : Except DbError Db := do
  let hash := getBlockHash k.toHashFunctions blk
  checkThrow (db.blockHeights.find? hash = none) .blockExists
  db.checkParent blk
  let blob ← orThrow .dbError (blockToBlob blk)
  let blocks ← putBlob db.blocks db.height blob
  let cumRct ← db.cumRct blk numRctOuts
  let blockInfo ← orThrow .dbError (db.blockInfo.append db.height
    ⟨blk.timestamp, data.coinsGenerated, data.blockWeight, data.cumulativeDifficulty, hash, cumRct,
      data.longTermBlockWeight⟩)
  .ok { db with blocks := blocks, blockInfo := blockInfo, blockHeights := db.blockHeights.assign hash db.height }

def numRctOuts (blk : Block) (txs : List (Transaction × Bytes)) : ℕ :=
  (if blk.minerTx.version = 2 then blk.minerTx.vout.length else 0) +
    (txs.map fun tx => (tx.1.vout.filter fun out => out.amount = 0).length).sum

def addBlock (blk : Block) (data : Metadata) (txs : List (Transaction × Bytes)) : Except DbError Db := do
  checkThrow (blk.txHashes.length = txs.length) .runtimeError
  let minerBlob ← orThrow .dbError (txToBlob blk.minerTx)
  let db ← db.addTransaction k blk.minerTx minerBlob (k.getTransactionHash blk.minerTx)
  let db ← addTransactions k blk.txHashes txs db
  db.addBlockRow k blk data (numRctOuts blk txs)

section

def getTopBlock : Except DbError (Block × ℕ) := do
  let blob ← orThrow .blockDne (db.blocks.find? (db.height - 1))
  let blk ← orThrow .dbError (parseAndValidateBlockFromBlob blob)
  .ok (blk, db.height - 1)

def removeBlock (cursor : ℕ) : Except DbError Db := do
  checkThrow (db.height ≠ 0) .blockDne
  let info ← orThrow .blockDne (db.blockInfo.find? (db.height - 1))
  let _ ← orThrow .dbError (db.blockHeights.find? info.hash)
  let _ ← orThrow .dbError (db.blocks.find? cursor)
  .ok { db with
    blockHeights := db.blockHeights.erase info.hash
    blocks := db.blocks.erase cursor
    blockInfo := db.blockInfo.erase (db.height - 1) }

def getTxBlob (txHash : Hash) : Option Bytes := do
  let data ← db.txIndices.find? txHash
  let pruned ← db.txsPruned.find? data.txId
  let prunable ← db.txsPrunable.find? data.txId
  pure (pruned ++ prunable)

def getPrunedTxBlob (txHash : Hash) : Option Bytes := do
  let data ← db.txIndices.find? txHash
  db.txsPruned.find? data.txId

def getPrunedTx (txHash : Hash) : Except DbError Transaction := do
  let blob ← orThrow .txDne (db.getPrunedTxBlob txHash)
  orThrow .dbError (parseAndValidateTxBaseFromBlob k.scalarmultInvEight blob)

def getTxOrPruned (txHash : Hash) : Except DbError Transaction :=
  match db.getTxBlob txHash with
  | some blob => orThrow .dbError (parseAndValidateTxFromBlob k.scalarmultInvEight blob)
  | none => db.getPrunedTx k txHash

def removeSpentKey (db : Db) (kImage : KeyImage) : Db := { db with spentKeys := db.spentKeys.erase kImage }

def removeInput (db : Db) : Txin → Db
  | .toKey txin => db.removeSpentKey txin.kImage
  | _ => db

end

end Db

namespace OutputTables

def removeOutput (outs : OutputTables) (amount : UInt64) (index : ℕ) : Except DbError OutputTables := do
  let row ← orThrow .outputDne (outs.outputAmounts.find? (amount.toNat, index))
  let _ ← orThrow .dbError (outs.outputTxs.find? row.outputId)
  .ok ⟨outs.outputTxs.erase row.outputId, outs.outputAmounts.erase (amount.toNat, index)⟩

def removeOutputs (amount : TxOut → UInt64) : List TxOut → List ℕ → OutputTables → Except DbError OutputTables
  | [], _, outs => .ok outs
  | _ :: _, [], _ => .error .undefined
  | out :: rest, index :: indices, outs => do
    let outs ← removeOutputs amount rest indices outs
    outs.removeOutput (amount out) index

end OutputTables

def removedAmount (tx : Transaction) (out : TxOut) : UInt64 :=
  if tx.version ≥ 2 && isCoinbase tx then 0 else out.amount

namespace Db

variable (db : Db)

def removeTxOutputs (txId : ℕ) (tx : Transaction) : Except DbError OutputTables := do
  let indices ← orThrow .undefined (db.txOutputs.find? txId)
  checkThrow (¬(indices = [] ∧ tx.vout ≠ [])) .dbError
  db.outs.removeOutputs (removedAmount tx) tx.vout indices

def removeTip (txId : ℕ) : WithDups Unit :=
  match db.txsPrunableTip.entries.find? fun x => x.1.1 = txId with
  | none => db.txsPrunableTip
  | some x => db.txsPrunableTip.erase x.1

def removePrunableHash (tx : Transaction) (txId : ℕ) : Except DbError (ById Hash) :=
  if tx.version > 1 then
    (orThrow .dbError (db.txsPrunableHash.find? txId)).map fun _ => db.txsPrunableHash.erase txId
  else .ok db.txsPrunableHash

def removeTransactionData (txHash : Hash) (tx : Transaction) : Except DbError Db := do
  let data ← orThrow .txDne (db.txIndices.find? txHash)
  let _ ← orThrow .dbError (db.txsPruned.find? data.txId)
  let hashes ← db.removePrunableHash tx data.txId
  let outs ← db.removeTxOutputs data.txId tx
  .ok { db with
    txsPruned := db.txsPruned.erase data.txId
    txsPrunable := db.txsPrunable.erase data.txId
    txsPrunableTip := db.removeTip data.txId
    txsPrunableHash := hashes
    outs := outs
    txOutputs := db.txOutputs.erase data.txId
    txIndices := db.txIndices.erase txHash }

def removeTransaction (txHash : Hash) : Except DbError Db := do
  let tx ← db.getPrunedTx k txHash
  (tx.vin.foldl removeInput db).removeTransactionData txHash tx

def popTransactions : List Hash → Db → Except DbError (List Transaction × Db)
  | [], db => .ok ([], db)
  | txHash :: hashes, db => do
    let (txs, db) ← popTransactions hashes db
    let tx ← db.getTxOrPruned k txHash
    let db ← db.removeTransaction k txHash
    .ok (txs ++ [tx], db)

def popBlock : Except DbError (Block × List Transaction × Db) := do
  let (blk, cursor) ← db.getTopBlock
  let db ← db.removeBlock cursor
  let (txs, db) ← popTransactions k blk.txHashes db
  let db ← db.removeTransaction k (k.getTransactionHash blk.minerTx)
  .ok (blk, txs, db)

end Db

end Velkavo.BlockchainDb
