import Velkavo.BlockchainDb.AddTransaction
import Mathlib.Algebra.Order.BigOperators.Group.List
import Mathlib.Data.UInt

namespace Velkavo.BlockchainDb

open Cryptonote ByteCodec Effects

variable {k : DbFunctions} {db db' : Db} {blk : Block} {blob : Bytes} {data : Db.Metadata}
  {txs : List (Transaction × Bytes)}

structure ParsedBlock (k : DbFunctions) where
  blk : Block
  blob : Bytes
  blob_eq : blockToBlob blk = some blob
  parse : parseAndValidateBlockFromBlob blob = some blk
  txs : List (Transaction × Bytes)
  parsed : ∀ p ∈ txs, Parsed k p.1 p.2
  data : Db.Metadata

inductive Reachable (k : DbFunctions) : Db → Prop
  | empty (pruningSeed : Option UInt32) : Reachable k (Db.empty pruningSeed)
  | addBlock {db db' : Db} (blk : Block) (data : Db.Metadata) (txs : List (Transaction × Bytes))
      (reachable : Reachable k db) (added : db.addBlock k blk data txs = .ok db') : Reachable k db'

theorem addBlockRow_spec {numRctOuts : ℕ} (h : db.addBlockRow k blk data numRctOuts = .ok db') :
    ∃ (blob : Bytes) (info : MdbBlockInfo), blockToBlob blk = some blob ∧ db.blockHeights.find? info.hash = none ∧
      (∀ x ∈ db.blocks.entries, x.1 < db.height) ∧ db.blockInfo.find? db.height = none ∧ db' = { db with
        blocks := db.blocks.assign db.height blob
        blockInfo := db.blockInfo.assign db.height info
        blockHeights := db.blockHeights.assign info.hash db.height } := by
  obtain ⟨hnew, h⟩ := checkThrow_bind.mp h
  obtain ⟨-, -, h⟩ := bind_eq_ok.mp h
  obtain ⟨blob, hblob, h⟩ := bind_eq_ok.mp h
  obtain ⟨blocks, hblocks, h⟩ := bind_eq_ok.mp h
  obtain ⟨cumRct, -, h⟩ := bind_eq_ok.mp h
  obtain ⟨blockInfo, hinfo, h⟩ := bind_eq_ok.mp h
  obtain ⟨-, rfl, hlast⟩ := putBlob_eq_ok hblocks
  obtain ⟨rfl, hnewInfo⟩ := OrderedMap.append_eq_some (orThrow_eq_ok.mp hinfo)
  cases h
  exact ⟨blob, _, orThrow_eq_ok.mp hblob, hnew, hlast, OrderedMap.find?_eq_none_of_lt hnewInfo, rfl⟩

theorem outs_addBlockRow {numRctOuts : ℕ} (h : db.addBlockRow k blk data numRctOuts = .ok db') : db'.outs = db.outs := by
  obtain ⟨blob, info, -, -, -, -, rfl⟩ := addBlockRow_spec h
  rfl

theorem removeBlock_addBlockRow {numRctOuts : ℕ} (h : db.addBlockRow k blk data numRctOuts = .ok db')
    (hblob : blockToBlob blk = some blob) (hparse : parseAndValidateBlockFromBlob blob = some blk)
    (outs : OutputTables) :
    Db.getTopBlock { db' with outs := outs } = .ok (blk, db.height) ∧
      Db.removeBlock { db' with outs := outs } db.height = .ok { db with outs := outs } := by
  obtain ⟨blob', info, hblob', hnew, hlast, hnewInfo, rfl⟩ := addBlockRow_spec h
  obtain rfl : blob' = blob := Option.some.inj (hblob'.symm.trans hblob)
  have hnewBlock : db.blocks.find? db.height = none := OrderedMap.find?_eq_none_of_lt hlast
  have hheight : (db.blocks.assign db.height blob').size - 1 = db.height := by
    rw [OrderedMap.size_assign hnewBlock]
    rfl
  have hblockRow : (db.blocks.assign db.height blob').find? db.height = some blob' := by
    rw [OrderedMap.find?_assign, if_pos rfl]
  have hinfoRow : (db.blockInfo.assign db.height info).find? db.height = some info := by
    rw [OrderedMap.find?_assign, if_pos rfl]
  have hheightRow : (db.blockHeights.assign info.hash db.height).find? info.hash = some db.height := by
    rw [OrderedMap.find?_assign, if_pos rfl]
  constructor
  · refine bind_eq_ok.mpr ⟨blob', orThrow_eq_ok.mpr ?_, bind_eq_ok.mpr ⟨blk, orThrow_eq_ok.mpr hparse, ?_⟩⟩
    · exact (congrArg _ hheight).trans hblockRow
    · exact congrArg (fun height => Except.ok (blk, height)) hheight
  · refine checkThrow_bind.mpr ⟨?_, bind_eq_ok.mpr ⟨info, orThrow_eq_ok.mpr ?_, bind_eq_ok.mpr ⟨_,
      orThrow_eq_ok.mpr hheightRow, bind_eq_ok.mpr ⟨blob', orThrow_eq_ok.mpr hblockRow, ?_⟩⟩⟩⟩
    · change (db.blocks.assign db.height blob').size ≠ 0
      rw [OrderedMap.size_assign hnewBlock]
      exact Nat.succ_ne_zero _
    · exact (congrArg _ hheight).trans hinfoRow
    · change Except.ok { db with
        blockHeights := (db.blockHeights.assign info.hash db.height).erase info.hash
        blocks := (db.blocks.assign db.height blob').erase db.height
        blockInfo := (db.blockInfo.assign db.height info).erase ((db.blocks.assign db.height blob').size - 1)
        outs := outs } = _
      rw [hheight, OrderedMap.erase_assign hashKey_injective hnew, OrderedMap.erase_assign Function.injective_id hnewBlock,
        OrderedMap.erase_assign Function.injective_id hnewInfo]

structure BlockAdded (k : DbFunctions) (db : Db) (blk : Block) (data : Db.Metadata) (txs : List (Transaction × Bytes))
    (minerBlob : Bytes) (indices : List ℕ) (rows : List (List ℕ)) (db₁ db₂ db' : Db) : Prop where
  minerBlob_eq : txToBlob blk.minerTx = some minerBlob
  miner : TransactionAdded k db blk.minerTx minerBlob (k.getTransactionHash blk.minerTx) indices db₁
  transactions : TransactionsAdded k db₁ blk.txHashes txs rows db₂
  block : db₂.addBlockRow k blk data (Db.numRctOuts blk txs) = .ok db'

theorem blockAdded_of_ok (h : db.addBlock k blk data txs = .ok db') :
    ∃ minerBlob indices rows db₁ db₂, BlockAdded k db blk data txs minerBlob indices rows db₁ db₂ db' := by
  obtain ⟨hlength, h⟩ := checkThrow_bind.mp h
  obtain ⟨minerBlob, hminerBlob, h⟩ := bind_eq_ok.mp h
  obtain ⟨db₁, hminer, h⟩ := bind_eq_ok.mp h
  obtain ⟨db₂, htxs, h⟩ := bind_eq_ok.mp h
  obtain ⟨indices, hminer⟩ := transactionAdded_of_ok hminer
  obtain ⟨rows, htxs⟩ := transactionsAdded_of_ok hlength htxs
  exact ⟨minerBlob, indices, rows, db₁, db₂, orThrow_eq_ok.mp hminerBlob, hminer, htxs, h⟩

theorem tipBelow_addBlock (h : db.addBlock k blk data txs = .ok db') (htip : db.TipBelow) : db'.TipBelow := by
  obtain ⟨minerBlob, indices, rows, db₁, db₂, hadded⟩ := blockAdded_of_ok h
  have htip₂ := hadded.transactions.tipBelow (hadded.miner.tipBelow htip)
  obtain ⟨blob, info, -, -, -, -, rfl⟩ := addBlockRow_spec hadded.block
  exact htip₂

theorem Reachable.tipBelow (h : Reachable k db) : db.TipBelow := by
  induction h with
  | empty pruningSeed => exact List.forall_mem_nil _
  | addBlock blk data txs reachable added ih => exact tipBelow_addBlock added ih

section

variable {minerBlob : Bytes} {indices : List ℕ} {rows : List (List ℕ)} {db₁ db₂ : Db}

theorem BlockAdded.keys (h : BlockAdded k db blk data txs minerBlob indices rows db₁ db₂ db') :
    KeysAdded db.spentKeys (keyImages blk.minerTx.vin ++ txs.flatMap fun p => keyImages p.1.vin) db'.spentKeys := by
  have hkeys := h.miner.inputs.keys.trans h.transactions.keys
  obtain ⟨blob, info, -, -, -, -, rfl⟩ := addBlockRow_spec h.block
  exact hkeys

theorem BlockAdded.blobs (h : BlockAdded k db blk data txs minerBlob indices rows db₁ db₂ db')
    (hblob : blockToBlob blk = some blob) :
    db'.blocks.entries.map Prod.snd = db.blocks.entries.map Prod.snd ++ [blob] := by
  obtain ⟨blob', info, hblob', -, hlast, -, rfl⟩ := addBlockRow_spec h.block
  obtain rfl : blob' = blob := Option.some.inj (hblob'.symm.trans hblob)
  have hentries : (db₂.blocks.assign db₂.height blob').entries = db₂.blocks.entries ++ [(db₂.height, blob')] :=
    OrderedMap.entries_assign_of_lt hlast
  change (db₂.blocks.assign db₂.height blob').entries.map Prod.snd = _
  rw [hentries, h.transactions.blocks_eq, h.miner.blocks_eq, List.map_append]
  rfl

theorem hasBase_minerTx (hparse : parseAndValidateBlockFromBlob blob = some blk)
    (hblob : txToBlob blk.minerTx = some minerBlob) : HasBase k blk.minerTx minerBlob := by
  have hread := Codec.readAll_eq_some.mp hparse
  obtain ⟨hwf, rfl⟩ := wellFormed_of_txToBlob (pruned_minerTx_of_read hread) hblob
  exact hasBase_write hwf

theorem BlockAdded.popBlock (h : BlockAdded k db blk data txs minerBlob indices rows db₁ db₂ db') (htip : db.TipBelow)
    (hblob : blockToBlob blk = some blob) (hparse : parseAndValidateBlockFromBlob blob = some blk)
    (hbase : ∀ p ∈ txs, HasBase k p.1 p.2) (outs : OutputTables) :
    Db.popBlock k { db' with outs := outs } = (do
      let (read, outs) ← removeAll k txs rows outs
      let outs ← outs.removeOutputs (removedAmount blk.minerTx) blk.minerTx.vout indices
      .ok (blk, read, { db with outs := outs })) := by
  obtain ⟨htop, hremove⟩ := removeBlock_addBlockRow h.block hblob hparse outs
  have hminer : HasBase k blk.minerTx minerBlob := hasBase_minerTx hparse h.minerBlob_eq
  rw [Db.popBlock, htop]
  change (Db.removeBlock { db' with outs := outs } db₂.height >>= fun db => _) = _
  rw [hremove]
  change (Db.popTransactions k blk.txHashes { db₂ with outs := outs } >>= fun x => _) = _
  rw [h.transactions.popTransactions hbase (h.miner.tipBelow htip)]
  cases removeAll k txs rows outs with
  | error e => rfl
  | ok x =>
    change (Db.removeTransaction k { db₁ with outs := x.2 } _ >>= fun db => _) = _
    rw [h.miner.removeTransaction hminer htip]
    change _ = (OutputTables.removeOutputs _ _ _ _ >>= fun outs => _)
    cases OutputTables.removeOutputs (removedAmount blk.minerTx) blk.minerTx.vout indices x.2 <;> rfl

theorem BlockAdded.popBlock_iff (h : BlockAdded k db blk data txs minerBlob indices rows db₁ db₂ db') (htip : db.TipBelow)
    (hblob : blockToBlob blk = some blob) (hparse : parseAndValidateBlockFromBlob blob = some blk)
    (hbase : ∀ p ∈ txs, HasBase k p.1 p.2) :
    db'.popBlock k = .ok (blk, (txs.map Prod.fst).reverse, db) ↔
      OutputsMatch blk.minerTx ∧ ∀ p ∈ txs, OutputsMatch p.1 ∧
        parseAndValidateTxFromBlob k.scalarmultInvEight p.2 = some p.1 := by
  have hminer : HasBase k blk.minerTx minerBlob := hasBase_minerTx hparse h.minerBlob_eq
  have hequation := h.popBlock htip hblob hparse hbase db'.outs
  change db'.popBlock k = _ at hequation
  have houtsRow : db'.outs = db₂.outs := outs_addBlockRow h.block
  rw [hequation, houtsRow]
  constructor
  · intro hpop
    obtain ⟨⟨read, outs₁⟩, hremove, hpop⟩ := bind_eq_ok.mp hpop
    obtain ⟨outs, hminerRemove, hpop⟩ := bind_eq_ok.mp hpop
    obtain ⟨rfl, houts⟩ : read = (txs.map Prod.fst).reverse ∧ ({ db with outs := outs } : Db) = db := by
      simpa using hpop
    have houts : outs = db.outs := congrArg Db.outs houts
    obtain ⟨hadded, hremoved⟩ := h.transactions.amountCount hremove
    have hminerAdded := @amountCount_addOutputs k _ _ _ _ _ _ 0 _ _ h.miner.outputs
    have hminerRemoved := @amountCount_removeOutputs _ _ 0 _ _ _ hminerRemove
    change _ = _ + storedZeros blk.minerTx at hminerAdded
    change _ = _ + removedZeros blk.minerTx at hminerRemoved
    rw [houts] at hminerRemoved
    have hle : ∀ p ∈ txs, removedZeros p.1 ≤ storedZeros p.1 := fun p hp => removedZeros_le (hbase p hp).version
    have hsum : (txs.map fun p => removedZeros p.1).sum ≤ (txs.map fun p => storedZeros p.1).sum := List.sum_le_sum hle
    have hminerLe := removedZeros_le hminer.version
    refine ⟨outputsMatch_of_zeros (by omega), fun p hp => ⟨outputsMatch_of_zeros ?_, h.transactions.read_eq hremove p hp⟩⟩
    by_contra hne
    have hlt := List.sum_lt_sum _ _ hle ⟨p, hp, lt_of_le_of_ne (hle p hp) hne⟩
    omega
  · rintro ⟨hmatch, htxs⟩
    have hrestore := h.transactions.restore fun p hp =>
      ⟨(removedAmount_eq_iff (hbase p hp).version).mpr (htxs p hp).1, (htxs p hp).2⟩
    have hminerRestore := removeOutputs_addOutputs h.miner.outputs ((removedAmount_eq_iff hminer.version).mpr hmatch)
    exact bind_eq_ok.mpr ⟨_, hrestore, bind_eq_ok.mpr ⟨_, hminerRestore, rfl⟩⟩

theorem Parsed.parse_iff {tx : Transaction} (h : Parsed k tx blob) :
    parseAndValidateTxFromBlob k.scalarmultInvEight blob = some tx ↔ tx.pruned = false := by
  cases h with
  | whole hpruned hblob hparse => exact iff_of_true hparse hpruned
  | pruned hpruned hblob hparse =>
    refine iff_of_false (fun hwhole => ?_) (by simp [hpruned])
    obtain ⟨read, hread, hexpand⟩ := Option.bind_eq_some_iff.mp hwhole
    have hfalse := (serialised_expand hexpand).2.trans (pruned_of_read (Codec.readAll_eq_some.mp hread))
    exact absurd (hpruned.symm.trans hfalse) (by decide)

end

theorem popBlock_addBlock_iff (hreachable : Reachable k db) (hblob : blockToBlob blk = some blob)
    (hparse : parseAndValidateBlockFromBlob blob = some blk) (htxs : ∀ p ∈ txs, Parsed k p.1 p.2)
    (hadd : db.addBlock k blk data txs = .ok db') :
    db'.popBlock k = .ok (blk, (txs.map Prod.fst).reverse, db) ↔
      OutputsMatch blk.minerTx ∧ ∀ p ∈ txs, OutputsMatch p.1 ∧ p.1.pruned = false := by
  obtain ⟨minerBlob, indices, rows, db₁, db₂, h⟩ := blockAdded_of_ok hadd
  rw [h.popBlock_iff hreachable.tipBelow hblob hparse fun p hp => (htxs p hp).hasBase]
  refine and_congr_right' (forall₂_congr fun p hp => and_congr_right' ?_)
  exact (htxs p hp).parse_iff

section

def constantFunctions : DbFunctions where
  cnFastHash _ := nullHash
  treeHash _ := nullHash
  getTransactionHash _ := nullHash
  rxSlowHash _ _ := nullHash
  cnSlowHash _ _ _ := nullHash
  getTransactionPrunableHash _ _ := nullHash
  zeroCommit _ := Blob.zero 32
  scalarmultInvEight := id

def payingTx (vin : List Txin) : Transaction :=
  ⟨⟨2, 0, vin, [⟨7, .toKey (Blob.fill 32 5)⟩], []⟩, [], default, false⟩

def spendingTx : Transaction :=
  ⟨⟨1, 0, [.toKey ⟨3, [0], Blob.fill 32 9⟩], [⟨3, .toKey (Blob.fill 32 6)⟩], []⟩, [[Blob.zero 64]], default, false⟩

def payingBlock (vin : List Txin) (txHashes : List Hash) : Block := ⟨⟨1, 0, 0, nullHash, 0⟩, payingTx vin, txHashes⟩

def noMetadata : Db.Metadata := ⟨0, 0, 0, 0⟩

set_option maxRecDepth 2000 in
theorem popBlock_addBlock_coinbase :
    ∃ db' blob, (Db.empty none).addBlock constantFunctions (payingBlock [.gen 0] [Blob.fill 32 1]) noMetadata
        [(spendingTx, blob)] = .ok db' ∧
      db'.popBlock constantFunctions = .ok (payingBlock [.gen 0] [Blob.fill 32 1], [spendingTx], Db.empty none) := by
  have hblk : (blockToBlob (payingBlock [.gen 0] [Blob.fill 32 1])).bind parseAndValidateBlockFromBlob =
      some (payingBlock [.gen 0] [Blob.fill 32 1]) := by decide
  have htx : (txToBlob spendingTx).bind (parseAndValidateTxFromBlob id) = some spendingTx := by decide
  have hadd : (orThrow .dbError (txToBlob spendingTx) >>= fun blob =>
      (Db.empty none).addBlock constantFunctions (payingBlock [.gen 0] [Blob.fill 32 1]) noMetadata
        [(spendingTx, blob)]).toBool = true := by decide
  obtain ⟨blkBlob, hblkBlob, hblkParse⟩ := Option.bind_eq_some_iff.mp hblk
  obtain ⟨blob, hblob, hparse⟩ := Option.bind_eq_some_iff.mp htx
  have hparsed : Parsed constantFunctions spendingTx blob := .whole rfl hblob hparse
  rw [hblob] at hadd
  change ((Db.empty none).addBlock constantFunctions (payingBlock [.gen 0] [Blob.fill 32 1]) noMetadata
    [(spendingTx, blob)]).toBool = true at hadd
  cases hdb : (Db.empty none).addBlock constantFunctions (payingBlock [.gen 0] [Blob.fill 32 1]) noMetadata
      [(spendingTx, blob)] with
  | error e =>
    rw [hdb] at hadd
    cases hadd
  | ok db' =>
    refine ⟨db', blob, hdb, ?_⟩
    exact (popBlock_addBlock_iff (.empty none) hblkBlob hblkParse (List.forall_mem_singleton.mpr hparsed) hdb).mpr
      ⟨by decide, List.forall_mem_singleton.mpr ⟨(by decide : OutputsMatch spendingTx), rfl⟩⟩

theorem popBlock_two_gen :
    (blockToBlob (payingBlock [.gen 0, .gen 0] [])).bind parseAndValidateBlockFromBlob =
      some (payingBlock [.gen 0, .gen 0] []) ∧
    ∃ db', (Db.empty none).addBlock constantFunctions (payingBlock [.gen 0, .gen 0] []) noMetadata [] = .ok db' ∧
      db'.popBlock constantFunctions = .error .outputDne := by
  have hpop : ((Db.empty none).addBlock constantFunctions (payingBlock [.gen 0, .gen 0] []) noMetadata [] >>= fun db' =>
      (db'.popBlock constantFunctions).map fun _ => ()) = .error .outputDne := by decide
  have hadd : ((Db.empty none).addBlock constantFunctions (payingBlock [.gen 0, .gen 0] []) noMetadata []).toBool = true := by
    decide
  cases hdb : (Db.empty none).addBlock constantFunctions (payingBlock [.gen 0, .gen 0] []) noMetadata [] with
  | error e =>
    rw [hdb] at hadd
    cases hadd
  | ok db' =>
    refine ⟨by decide, db', rfl, ?_⟩
    rw [hdb] at hpop
    change (db'.popBlock constantFunctions).map (fun _ => ()) = .error .outputDne at hpop
    cases hresult : db'.popBlock constantFunctions with
    | error e =>
      rw [hresult] at hpop
      exact congrArg Except.error (Except.error.inj hpop)
    | ok x =>
      rw [hresult] at hpop
      cases hpop

def summingFunctions : DbFunctions :=
  { constantFunctions with
    cnFastHash bytes := Blob.fill 32 bytes.sum
    getTransactionHash tx := Blob.fill 32 tx.unlockTime.toUInt8 }

def minedBlock (height : UInt64) (prevId : Hash) (txHashes : List Hash) : Block :=
  ⟨⟨1, 0, height, prevId, 0⟩, { payingTx [.gen height] with unlockTime := height + 60 }, txHashes⟩

def firstBlock : Block := minedBlock 0 nullHash []

def secondBlock : Block := minedBlock 1 (getBlockHash summingFunctions.toHashFunctions firstBlock) [Blob.fill 32 1]

def spendingBlob : Bytes := (txToBlob spendingTx).getD []

set_option maxRecDepth 2000 in
def parsedFirst : ParsedBlock summingFunctions :=
  ⟨firstBlock, (blockToBlob firstBlock).getD [], by decide, by decide, [], List.forall_mem_nil _, noMetadata⟩

set_option maxRecDepth 2000 in
def parsedSecond : ParsedBlock summingFunctions :=
  ⟨secondBlock, (blockToBlob secondBlock).getD [], by decide, by decide, [(spendingTx, spendingBlob)],
    List.forall_mem_singleton.mpr (.whole rfl (by decide) (by decide)), noMetadata⟩

end

end Velkavo.BlockchainDb
