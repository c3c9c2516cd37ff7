import Velkavo.BlockchainDb.SpentKeys
import Velkavo.Effects.Runs

/-! The tables after any run of additions and pops: the transactions of the chain that is left, and nothing else. -/

namespace Velkavo.BlockchainDb

open Cryptonote ByteCodec Effects

variable {k : DbFunctions} {pruningSeed : Option UInt32} {changes : List (MainChain.Change k)} {s s' : MainChain k}
  {b : IncomingBlock k} {blocks : List (IncomingBlock k)} {db db' : Db}

def IncomingBlock.stored (b : IncomingBlock k) : List (Hash × Bytes) :=
  (k.getTransactionHash b.blk.minerTx, (txToBlob b.blk.minerTx).getD []) :: b.blk.txHashes.zip (b.txs.map Prod.snd)

def IncomingBlock.Restorable (b : IncomingBlock k) : Prop := ∀ p ∈ b.txs, OutputsMatch p.1 ∧ p.1.pruned = false

structure TxRows (P : Hash × Bytes → Prop) (db : Db) : Prop where
  below : ∀ h data, db.txIndices.find? h = some data → data.txId < db.getTxCount
  blob : ∀ h blob, db.getTxBlob h = some blob ↔ P (h, blob)

section

variable {tx : Transaction} {blob : Bytes} {txHash : Hash} {indices : List ℕ} {P : Hash × Bytes → Prop}

theorem TransactionAdded.find_other (h : TransactionAdded k db tx blob txHash indices db') {x : Hash} (hx : x ≠ txHash) :
    db'.txIndices.find? x = db.txIndices.find? x := by
  rw [h.eq_with]
  exact (OrderedMap.find?_assign _ _ _ _).trans (if_neg (hashKey_injective.ne hx))

theorem TransactionAdded.getTxBlob_self (h : TransactionAdded k db tx blob txHash indices db') :
    db'.getTxBlob txHash = some blob := by
  rw [Db.getTxBlob, h.find_txIndices]
  change (db'.txsPruned.find? db.getTxCount).bind (fun pruned => (db'.txsPrunable.find? db.getTxCount).bind _) = _
  rw [h.find_txsPruned, h.find_txsPrunable]
  exact congrArg some (List.take_append_drop _ blob)

theorem TxRows.getTxBlob_other (h : TxRows P db) (hadd : TransactionAdded k db tx blob txHash indices db') {x : Hash}
    (hx : x ≠ txHash) : db'.getTxBlob x = db.getTxBlob x := by
  rw [Db.getTxBlob, Db.getTxBlob, hadd.find_other hx]
  cases hdata : db.txIndices.find? x with
  | none => rfl
  | some data =>
    have hne : id data.txId ≠ id db.getTxCount := (h.below x data hdata).ne
    rw [hadd.eq_with]
    change ((db.txsPruned.assign _ _).find? data.txId).bind (fun pruned =>
      ((db.txsPrunable.assign _ _).find? data.txId).bind _) = _
    rw [OrderedMap.find?_assign, OrderedMap.find?_assign, if_neg hne, if_neg hne]
    rfl

theorem TxRows.addTransaction (h : TxRows P db) (hadd : TransactionAdded k db tx blob txHash indices db') :
    TxRows (fun p => p = (txHash, blob) ∨ P p) db' := by
  refine ⟨fun x data hdata => ?_, fun x blob' => ?_⟩
  · rw [hadd.getTxCount_eq]
    by_cases hx : x = txHash
    · rw [hx, hadd.find_txIndices] at hdata
      cases hdata
      exact Nat.lt_succ_self _
    · rw [hadd.find_other hx] at hdata
      exact Nat.lt_succ_of_lt (h.below x data hdata)
  · rw [← h.blob]
    by_cases hx : x = txHash
    · have hnone : db.getTxBlob txHash = none := by rw [Db.getTxBlob, hadd.newHash]; rfl
      rw [hx, hnone, hadd.getTxBlob_self]
      simp [eq_comm]
    · rw [h.getTxBlob_other hadd hx]
      simp [hx]

theorem TxRows.addTransactions {hashes : List Hash} {txs : List (Transaction × Bytes)} {rows : List (List ℕ)}
    (h : TxRows P db) (hadd : TransactionsAdded k db hashes txs rows db') :
    TxRows (fun p => p ∈ hashes.zip (txs.map Prod.snd) ∨ P p) db' := by
  induction hadd generalizing P with
  | nil db => exact ⟨h.below, by simpa using h.blob⟩
  | cons head tail ih =>
    have htail := ih (h.addTransaction head)
    refine ⟨htail.below, fun x blob => (htail.blob x blob).trans ?_⟩
    rw [List.map_cons, List.zip_cons_cons, List.mem_cons]
    tauto

theorem Built.txRows (h : Built k blocks db) : TxRows (fun p => ∃ b ∈ blocks, p ∈ b.stored) db := by
  induction h with
  | nil pruningSeed outs => exact ⟨by simp [Db.empty], by simp [Db.empty, Db.getTxBlob]⟩
  | cons b built noKeys added outs ih =>
    obtain ⟨minerBlob, indices, rows, db₁, db₂, hadded⟩ := blockAdded_of_ok added
    have hrows := (ih.addTransaction hadded.miner).addTransactions hadded.transactions
    obtain ⟨blob, info, -, -, -, -, rfl⟩ := addBlockRow_spec hadded.block
    refine ⟨hrows.below, fun x blob => (hrows.blob x blob).trans ?_⟩
    rw [List.exists_mem_cons_iff, IncomingBlock.stored, hadded.minerBlob_eq, List.mem_cons, or_left_comm, or_assoc]
    rfl

end

namespace MainChain

theorem handleBlock_eq_some (h : s.handleBlockToMainChain b = some s') :
    isCoinbase b.blk.minerTx = true ∧ s.db.addBlock k b.blk b.data b.txs = .ok s'.db ∧ s'.blocks = b :: s.blocks := by
  rw [handleBlockToMainChain] at h
  split_ifs at h with hchecks
  obtain ⟨db', hadd, rfl⟩ := Option.map_eq_some_iff.mp h
  simp only [Bool.and_eq_true, Core.prevalidateMinerTransaction, decide_eq_true_eq] at hchecks
  exact ⟨by rw [isCoinbase, hchecks.1.2.1.1.1.1.1], toOption_eq_some.mp hadd, rfl⟩

theorem popBlock_handleBlock (h : Built k s.blocks s.db) (hb : b.Restorable)
    (hadd : s.handleBlockToMainChain b = some s') : s'.db.popBlock k = .ok (b.blk, (b.txs.map Prod.fst).reverse, s.db) := by
  obtain ⟨hcoinbase, hadd, -⟩ := handleBlock_eq_some hadd
  obtain ⟨minerBlob, indices, rows, db₁, db₂, hadded⟩ := blockAdded_of_ok hadd
  apply (hadded.popBlock_iff h.tipBelow b.blob_eq b.parse fun p hp => (b.parsed p hp).hasBase).mpr
  refine ⟨fun _ _ => .inl hcoinbase, fun p hp => ⟨(hb p hp).1, ?_⟩⟩
  exact (b.parsed p hp).parse_iff.mpr (hb p hp).2

theorem built_initial (hrun : run changes (initial pruningSeed) = some s) : Built k s.blocks s.db :=
  built_run (.nil pruningSeed ⟨∅, ∅⟩) hrun

end MainChain

theorem run_getTxBlob_iff (hrun : MainChain.run changes (.initial pruningSeed) = some s) (h : Hash) (blob : Bytes) :
    s.db.getTxBlob h = some blob ↔ ∃ b ∈ s.blocks, (h, blob) ∈ b.stored :=
  (MainChain.built_initial hrun).txRows.blob h blob

theorem run_eq_run_chain (hmatch : ∀ b, .accept b ∈ changes → b.Restorable)
    (hrun : MainChain.run changes (.initial pruningSeed) = some s) :
    MainChain.run (s.blocks.reverse.map .accept) (.initial pruningSeed) = some s := by
  have hinv := foldlM_invariant (P := fun s : MainChain k => (∀ b ∈ s.blocks, b.Restorable) ∧
    MainChain.run (s.blocks.reverse.map .accept) (.initial pruningSeed) = some s) ⟨List.forall_mem_nil _, rfl⟩ ?_ hrun
  · exact hinv.2
  rintro t (b | _) hmem t' ⟨hall, hchain⟩ hstep
  · obtain ⟨-, -, hblocks⟩ := MainChain.handleBlock_eq_some hstep
    rw [hblocks, List.reverse_cons, List.map_append, MainChain.run, List.foldlM_append]
    refine ⟨List.forall_mem_cons.mpr ⟨hmatch b hmem, hall⟩, ?_⟩
    exact Option.bind_eq_some_iff.mpr ⟨t, hchain, Option.bind_eq_some_iff.mpr ⟨t', hstep, rfl⟩⟩
  · have hheight := congrArg List.length (MainChain.built_initial hchain).blobs
    rw [List.length_map, List.length_map, List.length_reverse] at hheight
    rw [MainChain.step, MainChain.popBlockFromBlockchain] at hstep
    split_ifs at hstep with hpos
    -- the chain ends with the block that is popped, and the run of the blocks below it is the state that comes back
    obtain ⟨b, rest, hblocks⟩ := List.exists_cons_of_length_pos (hheight ▸ Nat.zero_lt_of_lt hpos : 0 < t.blocks.length)
    rw [hblocks, List.reverse_cons, List.map_append, MainChain.run, List.foldlM_append] at hchain
    obtain ⟨t₀, hrest, hlast⟩ := Option.bind_eq_some_iff.mp hchain
    obtain ⟨t₁, hadd, hlast⟩ := Option.bind_eq_some_iff.mp hlast
    cases hlast
    obtain ⟨-, -, hsame⟩ := MainChain.handleBlock_eq_some hadd
    obtain ⟨-, rfl⟩ := List.cons.inj (hblocks.symm.trans hsame)
    rw [hblocks] at hall
    rw [MainChain.popBlock_handleBlock (MainChain.built_initial hrest) (hall b List.mem_cons_self) hadd, hblocks] at hstep
    cases hstep
    exact ⟨fun x hx => hall x (List.mem_cons_of_mem b hx), hrest⟩

section

def poppedOnce : List (MainChain.Change summingFunctions) :=
  [.accept incomingFirst, .accept incomingSecond, .pop, .accept incomingSecond]

set_option maxRecDepth 4000 in
theorem run_poppedOnce : (MainChain.run poppedOnce (.initial none)).map (fun s => s.blocks.map fun b => b.stored.tail) =
    some [[(Blob.fill 32 1, spendingBlob)], []] := by decide

theorem run_getTxBlob_iff_poppedOnce : ∃ s, MainChain.run poppedOnce (.initial none) = some s ∧
    s.db.getTxBlob (Blob.fill 32 1) = some spendingBlob := by
  obtain ⟨s, hrun, hstored⟩ := Option.map_eq_some_iff.mp run_poppedOnce
  have hmem : [(Blob.fill 32 1, spendingBlob)] ∈ s.blocks.map fun b => b.stored.tail := hstored ▸ List.mem_cons_self
  obtain ⟨b, hb, htail⟩ := List.mem_map.mp hmem
  exact ⟨s, hrun, (run_getTxBlob_iff hrun _ _).mpr ⟨b, hb, List.mem_of_mem_tail (htail ▸ List.mem_cons_self)⟩⟩

theorem run_eq_run_chain_poppedOnce : ∃ s, MainChain.run poppedOnce (.initial none) = some s ∧ s.blocks.length = 2 ∧
    MainChain.run (s.blocks.reverse.map .accept) (.initial none) = some s := by
  obtain ⟨s, hrun, hstored⟩ := Option.map_eq_some_iff.mp run_poppedOnce
  refine ⟨s, hrun, by simpa using congrArg List.length hstored, run_eq_run_chain (fun b hb => ?_) hrun⟩
  obtain rfl | rfl : b = incomingFirst ∨ b = incomingSecond := by simpa [poppedOnce] using hb
  · exact List.forall_mem_nil _
  · exact List.forall_mem_singleton.mpr ⟨by decide, rfl⟩

end

end Velkavo.BlockchainDb
