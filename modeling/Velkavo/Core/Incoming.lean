import Velkavo.Core.AlternativeChain

namespace Velkavo.Core

open Cryptonote HashChain

namespace Blockchain

variable (c : HashFunctions) (fuel : ℕ) (r : Rules) (s : Blockchain)

def handleIncomingBlock (bl : Block) : Handled :=
  if !r.checkIncomingBlockSize bl then ⟨s, { verificationFailed := true }, false⟩
  else s.addNewBlock c r fuel bl

def handleBlocks : Blockchain → List Block → Blockchain
  | s, [] => s
  | s, bl :: rest =>
    if !r.makeFullPoolSupplement bl then s
    else
      let o := s.handleIncomingBlock c fuel r bl
      if o.bvc.verificationFailed || o.bvc.markedAsOrphaned then o.chain else handleBlocks o.chain rest

def tryAddNextBlocks (threads : ℕ) (blocks : List Block) : Blockchain :=
  match blocks.head?, blocks.getLast? with
  | some first, some last =>
    if s.haveBlock c (getBlockHash c last) then s
    else if !s.haveBlock c first.prevId then s
    else
      let prepared := s.prepareHandleIncomingBlocks c threads blocks
      if prepared.2 then (handleBlocks c fuel r prepared.1 blocks).cleanupHandleIncomingBlocks
      else prepared.1.cleanupHandleIncomingBlocks
  | _, _ => s

def handleResponseGetObjects (threads : ℕ) (blocks : List Block) : Blockchain :=
  if r.requestedSpan blocks && decide (blocks.IsChain fun a b => b.prevId = getBlockHash c a) then
    s.tryAddNextBlocks c fuel r threads blocks
  else s

def handleBlockFound (threads : ℕ) (b : Block) : Blockchain :=
  let prepared := s.prepareHandleIncomingBlocks c threads [b]
  if prepared.2 then (prepared.1.addNewBlock c r fuel b).chain.cleanupHandleIncomingBlocks
  else prepared.1.cleanupHandleIncomingBlocks

def handleSingleIncomingBlock (b : Block) : Blockchain :=
  (s.batchStart.handleIncomingBlock c fuel r b).chain.cleanupHandleIncomingBlocks

def popBlocks (nblocks : ℕ) : Blockchain :=
  (popWhile (fun _ => true) (min nblocks (s.db.length - 1)) s []).1

def start (genesis : Block) : Blockchain where
  db := [⟨genesis, 1⟩]
  altBlocks := ∅
  batch := none
  batchSuccess := true
  blocksLonghashTable := ∅
  blocksHashCheck := []
  invalidBlocks := []
  prepareHeight := 0
  prepareBlocks := []
  powChecks := []

end Blockchain

inductive Action
  | responseGetObjects (threads : ℕ) (blocks : List Block)
  | blockFound (threads : ℕ) (b : Block)
  | singleIncomingBlock (b : Block)
  | popBlocks (nblocks : ℕ)
  | rollback (height : ℕ)
  | setBlocksHashCheck (hashes : List Hash)
  | flushInvalidBlocks

def Action.blocks : Action → List Block
  | .responseGetObjects _ blocks => blocks
  | .blockFound _ b => [b]
  | .singleIncomingBlock b => [b]
  | _ => []

def step (c : HashFunctions) (fuel : ℕ) (r : Rules) (s : Blockchain) : Action → Blockchain
  | .responseGetObjects threads blocks => s.handleResponseGetObjects c fuel r threads blocks
  | .blockFound threads b => s.handleBlockFound c fuel r threads b
  | .singleIncomingBlock b => s.handleSingleIncomingBlock c fuel r b
  | .popBlocks nblocks => s.popBlocks nblocks
  | .rollback height => s.rollbackBlockchainSwitching c r [] height
  | .setBlocksHashCheck hashes => { s with blocksHashCheck := hashes }
  | .flushInvalidBlocks => { s with invalidBlocks := [] }

def run (c : HashFunctions) (fuel : ℕ) (s : Blockchain) (actions : List (Rules × Action)) : Blockchain :=
  actions.foldl (fun s a => step c fuel a.1 s a.2) s

theorem run_append (c : HashFunctions) (fuel : ℕ) (s : Blockchain) (a b : List (Rules × Action)) :
    run c fuel s (a ++ b) = run c fuel (run c fuel s a) b := List.foldl_append

variable {n : Network} {s : Blockchain} {r : Rules} {fuel : ℕ} {blocks : List Block}

theorem Settles.refl (h : Inv n s) : Settles n s s := ⟨h, .inl ⟨rfl, rfl⟩⟩

theorem Inv.addNewBlock (h : Inv n s) {bl : Block} (hbl : bl ∈ n.blocks)
    (hor : TableSound n s ∨ bl.prevId ≠ s.getTailId n.toHashFunctions) :
    Settles n s (s.addNewBlock n.toHashFunctions r fuel bl).chain := by
  rw [Blockchain.addNewBlock]
  split
  · exact .refl h
  split
  · exact h.handleAlternativeBlock fuel hbl hor
  · rename_i hprev
    have hs : Sound n s := ⟨h, hor.resolve_right hprev⟩
    have hmain : Sound n (s.handleBlockToMainChain n.toHashFunctions r bl {}).chain :=
      hs.handleBlockToMainChain hbl
    exact ⟨hmain.inv, .inr hmain.table⟩

theorem Inv.handleIncomingBlock (h : Inv n s) {bl : Block} (hbl : bl ∈ n.blocks)
    (hor : TableSound n s ∨ bl.prevId ≠ s.getTailId n.toHashFunctions) :
    Settles n s (s.handleIncomingBlock n.toHashFunctions fuel r bl).chain := by
  rw [Blockchain.handleIncomingBlock]
  split
  · exact .refl h
  · exact h.addNewBlock hbl hor

def Prepared (n : Network) (s : Blockchain) (blocks : List Block) : Prop :=
  TableSound n s ∨ ∀ b ∈ blocks, b.prevId ≠ s.getTailId n.toHashFunctions

theorem Prepared.settles {s' : Blockchain} (h : Prepared n s blocks) (hs : Settles n s s') :
    Prepared n s' blocks := by
  rcases hs.or with ⟨hdb, htable⟩ | ht
  · have htail : s'.getTailId n.toHashFunctions = s.getTailId n.toHashFunctions := by
      rw [Blockchain.getTailId, Blockchain.getTailId, Blockchain.ids, Blockchain.ids, hdb]
    rw [Prepared, TableSound, htable, htail]
    exact h
  · exact .inl ht

theorem Inv.handleBlocks (h : Inv n s) (hb : ∀ b ∈ blocks, b ∈ n.blocks) (hp : Prepared n s blocks) :
    Inv n (Blockchain.handleBlocks n.toHashFunctions fuel r s blocks) := by
  induction blocks generalizing s with
  | nil => exact h
  | cons b rest ih =>
    obtain ⟨hb, hrest⟩ := List.forall_mem_cons.mp hb
    have hstep : Settles n s (s.handleIncomingBlock n.toHashFunctions fuel r b).chain :=
      h.handleIncomingBlock hb (hp.imp_right fun hne => hne b List.mem_cons_self)
    have hnext := hp.settles hstep
    rw [Blockchain.handleBlocks]
    dsimp only
    split
    · exact h
    split
    · exact hstep.inv
    · apply ih hstep.inv hrest
      exact hnext.imp_right fun hne x hx => hne x (List.mem_cons_of_mem b hx)

theorem mem_blockLonghashWorker {height : ℕ} {e : Hash × Hash}
    (h : e ∈ s.blockLonghashWorker n.toHashFunctions height blocks) :
    ∃ i b, blocks[i]? = some b ∧ e = (n.id b, s.blockLonghash n.toHashFunctions b (height + i)) := by
  induction blocks generalizing height with
  | nil => cases h
  | cons b rest ih =>
    rw [Blockchain.blockLonghashWorker] at h
    rcases List.mem_cons.mp h with rfl | h
    · exact ⟨0, b, rfl, rfl⟩
    · obtain ⟨i, x, hx, rfl⟩ := ih h
      exact ⟨i + 1, x, hx, by rw [Nat.add_assoc, Nat.add_comm 1 i]⟩

theorem getPendingBlockIdByHeight_preparing (h : Inv n s) {i : ℕ} (hi : i < s.db.length + blocks.length) :
    ((s.db.map DbBlock.bl ++ blocks).map n.id)[i]? =
      some (Blockchain.getPendingBlockIdByHeight n.toHashFunctions
        { s with prepareHeight := s.db.length, prepareBlocks := blocks } i) := by
  have hpos : s.db.length ≠ 0 := by
    have hne := h.store.branch.ne_nil
    rw [ne_eq, List.map_eq_nil_iff] at hne
    exact List.length_eq_zero_iff.not.mpr hne
  rw [Blockchain.getPendingBlockIdByHeight, List.map_append, ← Blockchain.ids_eq]
  dsimp only
  split_ifs with hin
  · rw [List.getElem?_append_right (by rw [Blockchain.length_ids]; exact hin.2.1), Blockchain.length_ids,
      List.getElem?_eq_getElem (by rw [List.length_map]; exact hin.2.2), Option.getD_some]
  · have hlt : i < (s.ids n.toHashFunctions).length := by
      rw [Blockchain.length_ids]
      omega
    rw [List.getElem?_append_left hlt, Blockchain.getBlockIdByHeight]
    change _ = some (((s.ids n.toHashFunctions)[i]?).getD nullHash)
    rw [List.getElem?_eq_getElem hlt, Option.getD_some]

theorem tableSound_worker (h : Inv n s) (hb : ∀ b ∈ blocks, b ∈ n.blocks)
    (hchain : blocks.IsChain fun a b => b.prevId = n.id a)
    (hfirst : ∀ b ∈ blocks.head?, b.prevId = s.getTailId n.toHashFunctions) :
    TableSound n { s with
      blocksLonghashTable := .ofList (Blockchain.blockLonghashWorker n.toHashFunctions
        { s with prepareHeight := s.db.length, prepareBlocks := blocks } s.db.length blocks) } := by
  intro e he
  obtain ⟨i, b, hget, rfl⟩ := mem_blockLonghashWorker (UnorderedMap.mem_of_mem_ofList he)
  have hbranch : n.Branch (s.db.map DbBlock.bl ++ blocks) := by
    apply h.store.branch.append hchain _ hb
    intro y hy
    rw [h.tip_eq, hfirst y hy]
  have hi := (List.getElem?_eq_some_iff.mp hget).1
  have hpos : 0 < s.db.length := by simpa using List.length_pos_of_ne_nil h.store.branch.ne_nil
  have hat : (s.db.map DbBlock.bl ++ blocks)[s.db.length + i]? = some b := by
    rw [List.getElem?_append_right (by simp), List.length_map, Nat.add_sub_cancel_left, hget]
  have hbelow : n.Below ((s.db.map DbBlock.bl ++ blocks).take (s.db.length + i)) b :=
    ⟨hbranch.take (by omega), hbranch.tip_take_getElem (by omega) hat, hb b (List.mem_of_getElem? hget)⟩
  have hlen : ((s.db.map DbBlock.bl ++ blocks).take (s.db.length + i)).length = s.db.length + i := by
    rw [List.length_take, List.length_append, List.length_map]
    omega
  have hpow := powOf_blockLonghash
    (s := { s with prepareHeight := s.db.length, prepareBlocks := blocks }) hbelow
  rw [hlen] at hpow
  refine ⟨b, s.db.length + i, rfl, hpow fun _ => ?_⟩
  have hseed : rxSeedheight (s.db.length + i) < s.db.length + i := rxSeedheight_lt (by omega)
  rw [List.map_take, List.getElem?_take_of_lt hseed]
  exact getPendingBlockIdByHeight_preparing h (by omega)

theorem prev_ne_tail (h : Inv n s) (hchain : blocks.IsChain fun a b => b.prevId = n.id a)
    (hnew : ∀ b ∈ blocks, s.haveBlock n.toHashFunctions (n.id b) = false)
    (hfirst : ∀ b ∈ blocks.head?, b.prevId ≠ s.getTailId n.toHashFunctions) :
    ∀ b ∈ blocks, b.prevId ≠ s.getTailId n.toHashFunctions := by
  have htail : s.getTailId n.toHashFunctions ∈ s.ids n.toHashFunctions := by
    have htip := h.tip_eq
    rw [tip, ← List.getLast?_map, ← Blockchain.ids_eq] at htip
    exact List.mem_of_getLast? htip
  intro b hb
  obtain ⟨i, hi, rfl⟩ := List.getElem_of_mem hb
  cases i with
  | zero =>
    apply hfirst
    rw [List.head?_eq_getElem?, List.getElem?_eq_getElem hi]
    rfl
  | succ i =>
    rw [List.isChain_iff_getElem.mp hchain i hi]
    intro heq
    have hhave := hnew _ (List.getElem_mem (by omega : i < blocks.length))
    rw [Blockchain.haveBlock, Blockchain.blockExists, heq, decide_eq_true htail] at hhave
    cases hhave

theorem Sound.prepareHandleIncomingBlocks (h : Sound n s) (threads : ℕ) (hb : ∀ b ∈ blocks, b ∈ n.blocks)
    (hchain : blocks.IsChain fun a b => b.prevId = n.id a) :
    Inv n (s.prepareHandleIncomingBlocks n.toHashFunctions threads blocks).1 ∧
      Prepared n (s.prepareHandleIncomingBlocks n.toHashFunctions threads blocks).1 blocks := by
  have hstart : Inv n s.batchStart :=
    ⟨h.inv.store, fun b hb => by cases hb; exact h.inv.store, h.inv.checks, h.inv.idle⟩
  obtain _ | ⟨first, rest⟩ := blocks
  · exact ⟨h.inv, .inl h.table⟩
  rw [Blockchain.prepareHandleIncomingBlocks]
  dsimp only
  split
  · exact ⟨hstart, .inl h.table⟩
  split
  · exact ⟨hstart, .inl h.table⟩
  split
  · exact ⟨hstart, .inl h.table⟩
  rename_i hnew
  refine ⟨⟨hstart.store, hstart.batch, hstart.checks, hstart.idle⟩, ?_⟩
  by_cases hfirst : first.prevId = s.getTailId n.toHashFunctions
  · apply Or.inl
    apply tableSound_worker hstart hb hchain
    intro b hb
    cases hb
    exact hfirst
  · apply Or.inr
    apply prev_ne_tail (s := { s.batchStart with blocksLonghashTable := _ })
      ⟨hstart.store, hstart.batch, hstart.checks, hstart.idle⟩ hchain
    · intro b hb
      rw [List.any_eq_true] at hnew
      exact Bool.eq_false_iff.mpr fun htrue => hnew ⟨b, hb, htrue⟩
    · intro b hb
      cases hb
      exact hfirst

theorem Inv.cleanup (h : Inv n s) : Sound n s.cleanupHandleIncomingBlocks := by
  rw [Blockchain.cleanupHandleIncomingBlocks]
  refine ⟨?_, tableSound_of_empty rfl⟩
  split
  · rename_i db altBlocks hbatch
    split
    · exact ⟨h.store, by simp, h.checks, h.idle⟩
    · exact ⟨h.batch _ hbatch, by simp, h.checks, h.idle⟩
  · exact ⟨h.store, by simp, h.checks, h.idle⟩

theorem Sound.tryAddNextBlocks (h : Sound n s) (threads : ℕ) (hb : ∀ b ∈ blocks, b ∈ n.blocks)
    (hchain : blocks.IsChain fun a b => b.prevId = n.id a) :
    Sound n (s.tryAddNextBlocks n.toHashFunctions fuel r threads blocks) := by
  obtain ⟨hinv, hprepared⟩ := h.prepareHandleIncomingBlocks threads hb hchain
  rw [Blockchain.tryAddNextBlocks]
  split
  · split
    · exact h
    split
    · exact h
    dsimp only
    split
    · exact (hinv.handleBlocks hb hprepared).cleanup
    · exact hinv.cleanup
  · exact h

theorem Sound.handleBlockFound (h : Sound n s) (threads : ℕ) {b : Block} (hb : b ∈ n.blocks) :
    Sound n (s.handleBlockFound n.toHashFunctions fuel r threads b) := by
  obtain ⟨hinv, hprepared⟩ := h.prepareHandleIncomingBlocks threads
    (List.forall_mem_singleton.mpr hb) (List.isChain_singleton b)
  rw [Blockchain.handleBlockFound]
  split
  · exact (hinv.addNewBlock hb (hprepared.imp_right fun hne => hne b (List.mem_singleton_self b))).inv.cleanup
  · exact hinv.cleanup

theorem Sound.step (h : Sound n s) {a : Action} (ha : ∀ b ∈ a.blocks, b ∈ n.blocks) :
    Sound n (step n.toHashFunctions fuel r s a) := by
  cases a with
  | responseGetObjects threads blocks =>
    rw [Core.step, Blockchain.handleResponseGetObjects]
    split
    · rename_i hspan
      rw [Bool.and_eq_true, decide_eq_true_eq] at hspan
      exact h.tryAddNextBlocks threads ha hspan.2
    · exact h
  | blockFound threads b => exact h.handleBlockFound threads (ha b (List.mem_singleton_self b))
  | singleIncomingBlock b =>
    have hstart : Inv n s.batchStart :=
      ⟨h.inv.store, fun b hb => by cases hb; exact h.inv.store, h.inv.checks, h.inv.idle⟩
    have hadd : Settles n s.batchStart (s.batchStart.handleIncomingBlock n.toHashFunctions fuel r b).chain :=
      hstart.handleIncomingBlock (ha b (List.mem_singleton_self b)) (.inl h.table)
    exact hadd.inv.cleanup
  | popBlocks nblocks => exact h.popWhile _ _
  | rollback height => exact h.rollback (by simp)
  | setBlocksHashCheck hashes => exact ⟨⟨h.inv.store, h.inv.batch, h.inv.checks, h.inv.idle⟩, h.table⟩
  | flushInvalidBlocks => exact ⟨⟨h.inv.store, h.inv.batch, h.inv.checks, h.inv.idle⟩, h.table⟩

theorem sound_start (n : Network) : Sound n (Blockchain.start n.genesis) where
  inv := {
    store := ⟨Branch.single n.genesis_mem, fun h => by cases h⟩
    batch := fun b hb => by cases hb
    checks := fun check hcheck => by cases hcheck
    idle := rfl }
  table := tableSound_of_empty rfl

def Run (n : Network) (actions : List (Rules × Action)) : Prop :=
  ∀ a ∈ actions, ∀ b ∈ a.2.blocks, b ∈ n.blocks

theorem Sound.run (h : Sound n s) {actions : List (Rules × Action)} (ha : Run n actions) :
    Sound n (run n.toHashFunctions fuel s actions) := by
  induction actions generalizing s with
  | nil => exact h
  | cons a actions ih =>
    obtain ⟨ha, hrest⟩ := List.forall_mem_cons.mp ha
    exact ih (h.step ha) hrest

structure PowBound (n : Network) (s : Blockchain) (height : ℕ) : Prop where
  /-- The value compared is the slow hash of the block's own hashing blob. -/
  own : ∀ check ∈ s.powChecks, check.height = height →
    ∃ l, n.Below l check.bl ∧ l.length = height ∧
      check.proofOfWork = slowHash n.toHashFunctions (l.map n.id) check.bl
  depends : ∀ a ∈ s.powChecks, ∀ b ∈ s.powChecks, a.height = height → b.height = height →
    ∀ l m, n.Below l a.bl → n.Below m b.bl →
      slowHash n.toHashFunctions (l.map n.id) a.bl ≠ slowHash n.toHashFunctions (m.map n.id) b.bl →
      a.proofOfWork ≠ b.proofOfWork
  /-- It is the same on the main chain and on an alternative chain. -/
  same : ∀ a ∈ s.powChecks, ∀ b ∈ s.powChecks, a.height = height → a.bl = b.bl →
    a.path = .alternative → b.path = .main → a.proofOfWork = b.proofOfWork

theorem powBound_of_inv (h : Inv n s) {height : ℕ} (hne : height ≠ 202612) : PowBound n s height where
  own check hcheck hheight := by
    obtain ⟨l, hl, hlen, hpow⟩ := h.checks check hcheck
    rw [hheight] at hlen hpow
    exact ⟨l, hl, hlen, hpow hne⟩
  depends a ha b hb haheight hbheight l m hl hm hdiff := by
    obtain ⟨l', hl', -, hla⟩ := h.checks a ha
    obtain ⟨m', hm', -, hmb⟩ := h.checks b hb
    rw [hla (haheight ▸ hne), hmb (hbheight ▸ hne), hl'.ids_eq hl rfl, hm'.ids_eq hm rfl]
    exact hdiff
  same a ha b hb haheight hbl _ _ :=
    (Network.powOf_unique (h.checks a ha) (h.checks b hb) (congrArg n.id hbl)).2 (haheight ▸ hne)

end Velkavo.Core
