import Velkavo.BlockchainDb.PopBlock
import Velkavo.Core.BlockReward

/-! The main chain in the tables, and the key images that are spent in it. -/

namespace Velkavo.BlockchainDb

open Cryptonote ByteCodec Effects

/-- A block as it comes in, with its transactions and the outcome of the checks that do not read the tables. -/
structure IncomingBlock (k : DbFunctions) extends ParsedBlock k where
  hfVersion : UInt8
  passes : Bool

structure MainChain (k : DbFunctions) where
  db : Db
  blocks : List (IncomingBlock k)

variable {k : DbFunctions}

namespace MainChain

def initial (pruningSeed : Option UInt32) : MainChain k := ⟨Db.empty pruningSeed, []⟩

def handleBlockToMainChain (s : MainChain k) (b : IncomingBlock k) : Option (MainChain k) :=
  if b.passes && Core.prevalidateMinerTransaction b.blk.minerTx (UInt64.ofNat s.db.height) b.hfVersion &&
      b.blk.txHashes.all fun txHash => (s.db.txIndices.find? txHash).isNone then
    (s.db.addBlock k b.blk b.data b.txs).toOption.map fun db => ⟨db, b :: s.blocks⟩
  else none

def popBlockFromBlockchain (s : MainChain k) : Option (MainChain k) :=
  if s.db.height > 1 then (s.db.popBlock k).toOption.map fun popped => ⟨popped.2.2, s.blocks.tail⟩ else none

inductive Change (k : DbFunctions)
  | accept (b : IncomingBlock k)
  | pop

def step (s : MainChain k) : Change k → Option (MainChain k)
  | .accept b => s.handleBlockToMainChain b
  | .pop => s.popBlockFromBlockchain

def run (changes : List (Change k)) (s : MainChain k) : Option (MainChain k) := changes.foldlM step s

end MainChain

def IncomingBlock.images (b : IncomingBlock k) : List KeyImage := b.txs.flatMap fun p => keyImages p.1.vin

inductive Built (k : DbFunctions) : List (IncomingBlock k) → Db → Prop
  | nil (pruningSeed : Option UInt32) (outs : OutputTables) : Built k [] { Db.empty pruningSeed with outs := outs }
  | cons {blocks : List (IncomingBlock k)} {db db' : Db} (b : IncomingBlock k) (built : Built k blocks db)
      (noKeys : keyImages b.blk.minerTx.vin = []) (added : db.addBlock k b.blk b.data b.txs = .ok db')
      (outs : OutputTables) : Built k (b :: blocks) { db' with outs := outs }

namespace Built

variable {b : IncomingBlock k} {blocks : List (IncomingBlock k)} {db db' : Db}

theorem withOuts (h : Built k blocks db) (outs : OutputTables) : Built k blocks { db with outs := outs } := by
  cases h with
  | nil pruningSeed outs' => exact .nil pruningSeed outs
  | cons b built noKeys added outs' => exact .cons b built noKeys added outs

theorem tipBelow (h : Built k blocks db) : db.TipBelow := by
  induction h with
  | nil pruningSeed outs => exact List.forall_mem_nil _
  | cons b built noKeys added outs ih =>
    have htip := tipBelow_addBlock added ih
    exact htip

theorem keys (h : Built k blocks db) : KeysAdded ∅ (blocks.reverse.flatMap IncomingBlock.images) db.spentKeys := by
  induction h with
  | nil pruningSeed outs => exact keysAdded_nil _
  | cons b built noKeys added outs ih =>
    obtain ⟨minerBlob, indices, rows, db₁, db₂, hadded⟩ := blockAdded_of_ok added
    have hkeys := ih.trans hadded.keys
    rw [noKeys, List.nil_append] at hkeys
    rw [List.reverse_cons, List.flatMap_append, List.flatMap_singleton]
    exact hkeys

theorem blobs (h : Built k blocks db) : db.blocks.entries.map Prod.snd = blocks.reverse.map fun b => b.blob := by
  induction h with
  | nil pruningSeed outs => rfl
  | cons b built noKeys added outs ih =>
    obtain ⟨minerBlob, indices, rows, db₁, db₂, hadded⟩ := blockAdded_of_ok added
    rw [List.reverse_cons, List.map_append, ← ih]
    exact hadded.blobs b.blob_eq

theorem pop {blk : Block} {txs : List Transaction} (h : Built k (b :: blocks) db)
    (hpop : db.popBlock k = .ok (blk, txs, db')) : blk = b.blk ∧ Built k blocks db' := by
  cases h with
  | cons _ built noKeys added outs =>
    obtain ⟨minerBlob, indices, rows, db₁, db₂, hadded⟩ := blockAdded_of_ok added
    rw [hadded.popBlock built.tipBelow b.blob_eq b.parse fun p hp => (b.parsed p hp).hasBase] at hpop
    obtain ⟨⟨read, outs₁⟩, -, hpop⟩ := bind_eq_ok.mp hpop
    obtain ⟨outs₂, -, hpop⟩ := bind_eq_ok.mp hpop
    cases hpop
    exact ⟨rfl, built.withOuts outs₂⟩

end Built

namespace MainChain

variable {s s' : MainChain k}

theorem toOption_eq_some {α : Type} {x : Except DbError α} {a : α} : x.toOption = some a ↔ x = .ok a := by
  cases x with
  | error e => simp [Except.toOption]
  | ok b => simp [Except.toOption]

theorem built_handleBlock {b : IncomingBlock k} (h : Built k s.blocks s.db)
    (hstep : s.handleBlockToMainChain b = some s') : Built k s'.blocks s'.db := by
  rw [handleBlockToMainChain] at hstep
  split_ifs at hstep with hchecks
  obtain ⟨db', hadd, rfl⟩ := Option.map_eq_some_iff.mp hstep
  simp only [Bool.and_eq_true, Core.prevalidateMinerTransaction, decide_eq_true_eq] at hchecks
  have hvin := hchecks.1.2.1.1.1.1.1
  have hnoKeys : keyImages b.blk.minerTx.vin = [] := by
    rw [hvin]
    rfl
  exact .cons b h hnoKeys (toOption_eq_some.mp hadd) db'.outs

theorem built_pop (h : Built k s.blocks s.db) (hstep : s.popBlockFromBlockchain = some s') : Built k s'.blocks s'.db := by
  rw [popBlockFromBlockchain] at hstep
  split_ifs at hstep with hheight
  obtain ⟨⟨blk, txs, db'⟩, hpop, rfl⟩ := Option.map_eq_some_iff.mp hstep
  cases hblocks : s.blocks with
  | nil =>
    have hblobs := congrArg List.length h.blobs
    rw [hblocks, List.length_map] at hblobs
    have hzero : s.db.height = 0 := hblobs
    omega
  | cons b blocks =>
    rw [hblocks] at h
    exact (h.pop (toOption_eq_some.mp hpop)).2

theorem built_run {changes : List (Change k)} (h : Built k s.blocks s.db) (hrun : run changes s = some s') :
    Built k s'.blocks s'.db := by
  induction changes generalizing s with
  | nil =>
    cases hrun
    exact h
  | cons change changes ih =>
    obtain ⟨s₁, hstep, hrest⟩ := Option.bind_eq_some_iff.mp hrun
    refine ih ?_ hrest
    cases change with
    | accept b => exact built_handleBlock h hstep
    | pop => exact built_pop h hstep

end MainChain

theorem spentKeys_eq_chain {pruningSeed : Option UInt32} {changes : List (MainChain.Change k)} {s : MainChain k}
    (hrun : MainChain.run changes (MainChain.initial pruningSeed) = some s) :
    s.db.blocks.entries.map Prod.snd = s.blocks.reverse.map (fun b => b.blob) ∧
      (∀ image, s.db.spentKeys.find? image = some () ↔ ∃ b ∈ s.blocks, ∃ p ∈ b.txs, image ∈ keyImages p.1.vin) ∧
      (s.blocks.reverse.flatMap IncomingBlock.images).Nodup := by
  have hbuilt : Built k s.blocks s.db := MainChain.built_run (.nil pruningSeed ⟨∅, ∅⟩) hrun
  refine ⟨hbuilt.blobs, fun image => ?_, hbuilt.keys.nodup⟩
  rw [hbuilt.keys.find?, OrderedMap.find?_empty]
  simp [IncomingBlock.images]

section

def incomingFirst : IncomingBlock summingFunctions := ⟨parsedFirst, 1, true⟩

def incomingSecond : IncomingBlock summingFunctions := ⟨parsedSecond, 1, true⟩

set_option maxRecDepth 4000 in
theorem spentKeys_eq_chain_second : ∃ s : MainChain summingFunctions,
    MainChain.run [.accept incomingFirst, .accept incomingSecond, .pop, .accept incomingSecond] (.initial none) = some s ∧
      s.db.spentKeys.find? (Blob.fill 32 9) = some () := by
  have hrun : (MainChain.run [.accept incomingFirst, .accept incomingSecond, .pop, .accept incomingSecond]
      (.initial none)).map (fun s => s.blocks.flatMap IncomingBlock.images) = some [Blob.fill 32 9] := by decide
  obtain ⟨s, hs, himages⟩ := Option.map_eq_some_iff.mp hrun
  have hmem : Blob.fill 32 9 ∈ s.blocks.flatMap IncomingBlock.images := himages ▸ List.mem_singleton_self _
  obtain ⟨b, hb, himage⟩ := List.mem_flatMap.mp hmem
  exact ⟨s, hs, ((spentKeys_eq_chain hs).2.1 _).mpr ⟨b, hb, List.mem_flatMap.mp himage⟩⟩

end

end Velkavo.BlockchainDb
