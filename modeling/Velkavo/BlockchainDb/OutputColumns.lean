import Velkavo.BlockchainDb.PopBlock

/-! The heights of the outputs of an amount, and the column of cumulative RingCT outputs, for a chain of blocks. -/

namespace Velkavo.BlockchainDb

open Cryptonote ByteCodec Effects

variable {k : DbFunctions}

structure StoredBlock where
  blk : Block
  txs : List (Transaction × Bytes)

def storedCount (amount : UInt64) (tx : Transaction) : ℕ := tx.vout.countP fun out => storedAmount tx out = amount

namespace StoredBlock

def outputs (amount : UInt64) (b : StoredBlock) : ℕ :=
  storedCount amount b.blk.minerTx + (b.txs.map fun p => storedCount amount p.1).sum

/-- What the checks of a block leave: only the coinbase has the input of a coinbase, and it has no other. -/
structure Accepted (b : StoredBlock) : Prop where
  coinbase : ∃ height, b.blk.minerTx.vin = [.gen height]
  version : b.blk.minerTx.version = 1 ∨ b.blk.minerTx.version = 2
  others : ∀ p ∈ b.txs, p.1.vin.any isGen = false

end StoredBlock

inductive StoredChain (k : DbFunctions) : List StoredBlock → Db → Prop
  | empty (pruningSeed : Option UInt32) : StoredChain k [] (Db.empty pruningSeed)
  | add {chain : List StoredBlock} {db db' : Db} (b : StoredBlock) (data : Db.Metadata) (stored : StoredChain k chain db)
      (accepted : b.Accepted) (added : db.addBlock k b.blk data b.txs = .ok db') : StoredChain k (chain ++ [b]) db'

def OutputTables.rowHeights (outs : OutputTables) (amount : UInt64) : List ℕ :=
  (outs.outputAmounts.entries.filter fun x => x.1.1 = amount.toNat).map fun x => x.2.height

section

variable {height i : ℕ} {txHash : Hash} {tx : Transaction} {outs outs' : OutputTables} (a : UInt64)

theorem rowHeights_addOutput {out : TxOut} {localIndex index : ℕ} {unlockTime : UInt64} {commitment : Option Rct.Key}
    (h : outs.addOutput height txHash out localIndex unlockTime commitment = .ok (index, outs')) :
    outs'.rowHeights a = outs.rowHeights a ++ List.replicate (if out.amount = a then 1 else 0) height := by
  obtain ⟨pubkey, -, h⟩ := bind_eq_ok.mp h
  obtain ⟨-, h⟩ := checkThrow_bind.mp h
  obtain ⟨outputTxs, -, h⟩ := bind_eq_ok.mp h
  obtain ⟨outputAmounts, hamounts, h⟩ := bind_eq_ok.mp h
  cases h
  have hrow := orThrow_eq_ok.mp hamounts
  obtain ⟨rfl, hnew⟩ := appendDup_eq_some hrow
  have hlast : ∀ x ∈ outs.outputAmounts.entries, x.1.1 = out.amount.toNat → x.1.2 < outs.amountCount out.amount := by
    by_contra hno
    rw [OutputTables.appendDup, if_neg hno] at hrow
    cases hrow
  rw [OutputTables.rowHeights, OutputTables.rowHeights]
  by_cases hamount : out.amount = a
  · subst hamount
    rw [if_pos rfl, OrderedMap.filter_assign_last (decide_eq_true rfl) ?_ hnew, List.map_append]
    · rfl
    · intro x hx hkey
      have hkey : x.1.1 = out.amount.toNat := of_decide_eq_true hkey
      refine Prod.Lex.lt_iff.mpr (.inr ⟨hkey, hlast x hx hkey⟩)
  · have hother : ¬out.amount.toNat = a.toNat := fun he => hamount (UInt64.toNat_inj.mp he)
    rw [if_neg hamount, OrderedMap.filter_assign_other (decide_eq_false hother) hnew, List.replicate_zero, List.append_nil]

theorem rowHeights_addOutputs {vout : List TxOut} {indices : List ℕ}
    (h : addOutputs k height txHash tx i vout outs = .ok (indices, outs')) :
    outs'.rowHeights a = outs.rowHeights a ++ List.replicate (vout.countP fun out => storedAmount tx out = a) height := by
  induction vout generalizing i outs indices with
  | nil =>
    cases h
    exact (List.append_nil _).symm
  | cons out rest ih =>
    obtain ⟨stored, hstored, h⟩ := bind_eq_ok.mp h
    obtain ⟨⟨index, outs₁⟩, hout, h⟩ := bind_eq_ok.mp h
    obtain ⟨⟨indices₁, outs₂⟩, hrest, h⟩ := bind_eq_ok.mp h
    cases h
    have hrow := rowHeights_addOutput a hout
    rw [storedOutput_eq_ok hstored] at hrow
    rw [ih hrest, hrow, List.append_assoc, List.replicate_append_replicate, List.countP_cons, Nat.add_comm]
    simp only [decide_eq_true_eq]

theorem TransactionAdded.rowHeights {db db' : Db} {blob : Bytes} {indices : List ℕ}
    (h : TransactionAdded k db tx blob txHash indices db') :
    db'.outs.rowHeights a = db.outs.rowHeights a ++ List.replicate (storedCount a tx) db.height :=
  rowHeights_addOutputs a h.outputs

theorem TransactionsAdded.rowHeights {db db' : Db} {hashes : List Hash} {txs : List (Transaction × Bytes)} {rows : List (List ℕ)}
    (h : TransactionsAdded k db hashes txs rows db') :
    db'.outs.rowHeights a =
      db.outs.rowHeights a ++ List.replicate (txs.map fun p => storedCount a p.1).sum db.height := by
  induction h with
  | nil db => exact (List.append_nil _).symm
  | cons head tail ih =>
    rw [ih, head.rowHeights, head.height_eq, List.append_assoc, List.replicate_append_replicate, List.map_cons, List.sum_cons]

end

section

variable {db db' : Db} {tx : Transaction} {blob : Bytes} {txHash : Hash}

theorem TransactionAdded.blockInfo_eq {indices : List ℕ} (h : TransactionAdded k db tx blob txHash indices db') :
    db'.blockInfo = db.blockInfo := by
  rw [h.eq_with]
  rfl

theorem TransactionsAdded.blockInfo_eq {hashes : List Hash} {txs : List (Transaction × Bytes)} {rows : List (List ℕ)}
    (h : TransactionsAdded k db hashes txs rows db') : db'.blockInfo = db.blockInfo := by
  induction h with
  | nil db => rfl
  | cons head tail ih => exact ih.trans head.blockInfo_eq

theorem TransactionsAdded.height_eq {hashes : List Hash} {txs : List (Transaction × Bytes)} {rows : List (List ℕ)}
    (h : TransactionsAdded k db hashes txs rows db') : db'.height = db.height :=
  congrArg OrderedMap.size h.blocks_eq

theorem cumRct_addBlockRow {blk : Block} {data : Db.Metadata} {numRctOuts : ℕ}
    (h : db.addBlockRow k blk data numRctOuts = .ok db') :
    ∃ info cumRct, db.cumRct blk numRctOuts = .ok cumRct ∧ info.cumRct = cumRct ∧
      db'.blockInfo = db.blockInfo.assign db.height info ∧ db'.height = db.height + 1 := by
  obtain ⟨-, h⟩ := checkThrow_bind.mp h
  obtain ⟨-, -, h⟩ := bind_eq_ok.mp h
  obtain ⟨blob, -, h⟩ := bind_eq_ok.mp h
  obtain ⟨blocks, hblocks, h⟩ := bind_eq_ok.mp h
  obtain ⟨cumRct, hcum, h⟩ := bind_eq_ok.mp h
  obtain ⟨blockInfo, hinfo, h⟩ := bind_eq_ok.mp h
  obtain ⟨-, rfl, hlast⟩ := putBlob_eq_ok hblocks
  obtain ⟨rfl, -⟩ := OrderedMap.append_eq_some (orThrow_eq_ok.mp hinfo)
  cases h
  exact ⟨_, cumRct, hcum, rfl, rfl, OrderedMap.size_assign (OrderedMap.find?_eq_none_of_lt hlast) _⟩

end

theorem storedCount_version_one {height i : ℕ} {txHash : Hash} {tx : Transaction} {outs outs' : OutputTables} {vout : List TxOut}
    {indices : List ℕ} (hversion : tx.version = 1) (h : addOutputs k height txHash tx i vout outs = .ok (indices, outs')) :
    (vout.countP fun out => storedAmount tx out = 0) = 0 := by
  induction vout generalizing i outs indices with
  | nil => rfl
  | cons out rest ih =>
    obtain ⟨stored, hstored, h⟩ := bind_eq_ok.mp h
    obtain ⟨⟨index, outs₁⟩, hout, h⟩ := bind_eq_ok.mp h
    obtain ⟨⟨indices₁, outs₂⟩, hrest, h⟩ := bind_eq_ok.mp h
    cases h
    have hplain : storedOutput k tx i out = .ok (out, none) := by
      rw [storedOutput, hversion, if_neg (by simp), if_neg (by decide)]
    rw [hplain] at hstored
    cases hstored
    obtain ⟨pubkey, -, hout⟩ := bind_eq_ok.mp hout
    obtain ⟨hcommitment, -⟩ := checkThrow_bind.mp hout
    have hamount : ¬storedAmount tx out = 0 := by
      rw [storedAmount, hversion, if_neg (by simp)]
      exact fun hzero => hcommitment ⟨hzero, rfl⟩
    rw [List.countP_cons_of_neg (by simpa using hamount)]
    exact ih hrest

theorem storedCount_others {txs : List (Transaction × Bytes)} (h : ∀ p ∈ txs, p.1.vin.any isGen = false) :
    (txs.map fun p => (p.1.vout.filter fun out => out.amount = 0).length) = txs.map fun p => storedCount 0 p.1 := by
  refine List.map_congr_left fun p hp => ?_
  have hamount : ∀ out, storedAmount p.1 out = out.amount := by
    intro out
    rw [storedAmount, h p hp, Bool.false_and, if_neg Bool.false_ne_true]
  simp only [storedCount, hamount, List.countP_eq_length_filter]

theorem numRctOuts_eq {db db' : Db} {b : StoredBlock} {minerBlob : Bytes} {indices : List ℕ} (haccepted : b.Accepted)
    (hminer : TransactionAdded k db b.blk.minerTx minerBlob (k.getTransactionHash b.blk.minerTx) indices db') :
    Db.numRctOuts b.blk b.txs = b.outputs 0 := by
  obtain ⟨height, hvin⟩ := haccepted.coinbase
  rw [Db.numRctOuts, StoredBlock.outputs, storedCount_others haccepted.others]
  congr 1
  rcases haccepted.version with hversion | hversion
  · rw [storedCount, storedCount_version_one hversion hminer.outputs, hversion, if_neg (by decide)]
  · have hzero : ∀ out, storedAmount b.blk.minerTx out = 0 := by
      intro out
      rw [storedAmount, hvin, hversion]
      rfl
    rw [if_pos hversion, storedCount, List.countP_eq_length.mpr (by simp [hzero])]

/-- The column: a block below version 4 starts again from nothing. -/
def cumColumn (chain : List StoredBlock) : ℕ :=
  chain.foldl (fun cum b => b.outputs 0 + if b.blk.majorVersion ≥ 4 then cum else 0) 0

def totalOutputs (amount : UInt64) (chain : List StoredBlock) : ℕ := (chain.map (StoredBlock.outputs amount)).sum

def outputHeights (amount : UInt64) (chain : List StoredBlock) : List ℕ :=
  chain.zipIdx.flatMap fun x => List.replicate (x.1.outputs amount) x.2

theorem outputHeights_append (amount : UInt64) (chain : List StoredBlock) (b : StoredBlock) :
    outputHeights amount (chain ++ [b]) = outputHeights amount chain ++ List.replicate (b.outputs amount) chain.length := by
  rw [outputHeights, List.zipIdx_append, List.flatMap_append, Nat.zero_add]
  exact congrArg (outputHeights amount chain ++ ·) (List.append_nil _)

theorem cumColumn_append (chain : List StoredBlock) (b : StoredBlock) :
    cumColumn (chain ++ [b]) = b.outputs 0 + if b.blk.majorVersion ≥ 4 then cumColumn chain else 0 := by
  rw [cumColumn, List.foldl_append]
  rfl

theorem totalOutputs_append (amount : UInt64) (chain more : List StoredBlock) :
    totalOutputs amount (chain ++ more) = totalOutputs amount chain + totalOutputs amount more := by
  rw [totalOutputs, List.map_append, List.sum_append]
  rfl

structure Columns (chain : List StoredBlock) (db : Db) : Prop where
  height_eq : db.height = chain.length
  info : ∀ h < chain.length, ∃ info, db.blockInfo.find? h = some info ∧ info.cumRct = cumColumn (chain.take (h + 1))
  rows : ∀ amount, db.outs.rowHeights amount = outputHeights amount chain

variable {chain : List StoredBlock}

theorem Columns.cumRct_eq {db db' : Db} {blk : Block} {numRctOuts cumRct : ℕ} (h : Columns chain db)
    (hheight : db'.height = chain.length) (hinfo : db'.blockInfo = db.blockInfo)
    (hcum : db'.cumRct blk numRctOuts = .ok cumRct) :
    cumRct = numRctOuts + if blk.majorVersion ≥ 4 then cumColumn chain else 0 := by
  rw [Db.cumRct, hheight, hinfo] at hcum
  split_ifs at hcum ⊢ with hversion hempty
  · cases hcum
  · obtain ⟨prev, hprev, hcolumn⟩ := h.info (chain.length - 1) (by omega)
    rw [hprev] at hcum
    cases hcum
    change numRctOuts + prev.cumRct = _
    rw [hcolumn, Nat.sub_add_cancel (by omega), List.take_length]
  · cases hcum
    rfl

theorem Columns.addBlock {db db' : Db} {b : StoredBlock} {data : Db.Metadata} (h : Columns chain db)
    (haccepted : b.Accepted) (hadd : db.addBlock k b.blk data b.txs = .ok db') : Columns (chain ++ [b]) db' := by
  obtain ⟨minerBlob, indices, rows, db₁, db₂, hadded⟩ := blockAdded_of_ok hadd
  have hheight₁ : db₁.height = db.height := hadded.miner.height_eq
  have hheight₂ : db₂.height = chain.length := (hadded.transactions.height_eq.trans hheight₁).trans h.height_eq
  have hinfo₂ : db₂.blockInfo = db.blockInfo := hadded.transactions.blockInfo_eq.trans hadded.miner.blockInfo_eq
  obtain ⟨info, cumRct, hcum, rfl, hinfo, hheight⟩ := cumRct_addBlockRow hadded.block
  rw [numRctOuts_eq haccepted hadded.miner] at hcum
  refine ⟨by rw [hheight, hheight₂, List.length_append]; rfl, ?_, fun amount => ?_⟩
  · intro height hlt
    rw [List.length_append, List.length_singleton] at hlt
    rw [hinfo, OrderedMap.find?_assign, hheight₂, hinfo₂]
    by_cases htop : height = chain.length
    · subst htop
      refine ⟨info, if_pos rfl, ?_⟩
      rw [List.take_of_length_le (by rw [List.length_append]; exact le_rfl), cumColumn_append]
      exact h.cumRct_eq hheight₂ hinfo₂ hcum
    · obtain ⟨old, hold, hcumOld⟩ := h.info height (by omega)
      refine ⟨old, ?_, ?_⟩
      · exact (if_neg htop).trans hold
      · rw [hcumOld, List.take_append_of_le_length (by omega)]
  · rw [outs_addBlockRow hadded.block, hadded.transactions.rowHeights, hadded.miner.rowHeights, hheight₁, h.rows,
      outputHeights_append, List.append_assoc, List.replicate_append_replicate, h.height_eq]
    rfl

theorem StoredChain.columns {db : Db} (h : StoredChain k chain db) : Columns chain db := by
  induction h with
  | empty pruningSeed => exact ⟨rfl, fun h hlt => absurd hlt (Nat.not_lt_zero h), fun _ => rfl⟩
  | add b data stored accepted added ih => exact ih.addBlock accepted added

theorem countP_outputHeights (amount : UInt64) (chain : List StoredBlock) (h : ℕ) :
    ((outputHeights amount chain).countP fun height => height ≤ h) = totalOutputs amount (chain.take (h + 1)) := by
  induction chain using List.reverseRecOn with
  | nil => rfl
  | append_singleton chain b ih =>
    rw [outputHeights_append, List.countP_append, ih, List.countP_replicate, List.take_append, totalOutputs_append]
    simp only [decide_eq_true_eq]
    split_ifs with hle
    · rw [List.take_of_length_le (l := [b]) (by rw [List.length_singleton]; omega)]
      simp [totalOutputs]
    · rw [Nat.sub_eq_zero_of_le (by omega)]
      rfl

theorem lt_of_mem_outputHeights {amount : UInt64} {height : ℕ}
    (h : height ∈ outputHeights amount chain) : height < chain.length := by
  obtain ⟨x, hx, hheight⟩ := List.mem_flatMap.mp h
  rw [(List.mem_replicate.mp hheight).2]
  simpa using List.snd_lt_of_mem_zipIdx hx

theorem pairwise_outputHeights (amount : UInt64) (chain : List StoredBlock) :
    (outputHeights amount chain).Pairwise (· ≤ ·) := by
  induction chain using List.reverseRecOn with
  | nil => exact .nil
  | append_singleton chain b ih =>
    rw [outputHeights_append, List.pairwise_append]
    refine ⟨ih, List.pairwise_replicate.mpr (.inr le_rfl), fun x hx y hy => ?_⟩
    rw [(List.mem_replicate.mp hy).2]
    exact (lt_of_mem_outputHeights hx).le

/-- No RingCT output is in a block that a block below version 4 comes after. -/
def RctAfterOld (chain : List StoredBlock) : Prop :=
  chain.Pairwise fun x y => y.blk.majorVersion < 4 → x.outputs 0 = 0

theorem RctAfterOld.take (h : RctAfterOld chain) (n : ℕ) : RctAfterOld (chain.take n) :=
  List.Pairwise.sublist (List.take_sublist n chain) h

theorem totalOutputs_eq_zero_iff {amount : UInt64} :
    totalOutputs amount chain = 0 ↔ ∀ b ∈ chain, b.outputs amount = 0 := by
  rw [totalOutputs, List.sum_eq_zero_iff]
  simp

theorem cumColumn_eq_iff (chain : List StoredBlock) : cumColumn chain = totalOutputs 0 chain ↔ RctAfterOld chain := by
  induction chain using List.reverseRecOn with
  | nil => exact iff_of_true rfl .nil
  | append_singleton chain b ih =>
    have hsingle : totalOutputs 0 [b] = b.outputs 0 := by simp [totalOutputs]
    rw [cumColumn_append, totalOutputs_append, hsingle, RctAfterOld, List.pairwise_append]
    simp only [List.pairwise_singleton, List.mem_singleton, forall_eq, true_and]
    split_ifs with hversion
    · have hnew : ¬b.blk.majorVersion < 4 := UInt8.not_lt.mpr hversion
      simp only [hnew, false_implies, implies_true, and_true]
      rw [← RctAfterOld, ← ih]
      omega
    · have hold : b.blk.majorVersion < 4 := UInt8.not_le.mp hversion
      simp only [hold, true_implies]
      rw [← RctAfterOld, ← totalOutputs_eq_zero_iff]
      constructor
      · intro hsum
        have hzero : totalOutputs 0 chain = 0 := by omega
        have hall := totalOutputs_eq_zero_iff.mp hzero
        exact ⟨List.pairwise_iff_forall_sublist.mpr fun hsub _ => hall _ (hsub.subset List.mem_cons_self), hzero⟩
      · rintro ⟨-, hzero⟩
        omega

end Velkavo.BlockchainDb
