import Velkavo.Containers.HashChain
import Velkavo.Core.Blockchain

namespace Velkavo.Core

open Cryptonote HashChain

/--
The hash functions, the genesis block and the blocks that are ever seen. No two of these blocks with
different hashing blobs have the same identifier, and none has the null hash for one.
-/
structure Network extends HashFunctions where
  genesis : Block
  blocks : Set Block
  genesis_mem : genesis ∈ blocks
  prevId_genesis : genesis.prevId = nullHash
  blob_eq : ∀ a ∈ blocks, ∀ b ∈ blocks,
    getBlockHash toHashFunctions a = getBlockHash toHashFunctions b →
      getBlockHashingBlob toHashFunctions a = getBlockHashingBlob toHashFunctions b
  ne_null : ∀ b ∈ blocks, getBlockHash toHashFunctions b ≠ nullHash

namespace Network

variable (n : Network)

abbrev id (b : Block) : Hash := getBlockHash n.toHashFunctions b

abbrev Branch (l : List Block) : Prop := HashChain.Branch n.id (fun b => b.prevId) n.genesis n.blocks l

structure Below (l : List Block) (b : Block) : Prop where
  branch : n.Branch l
  tip : tip n.id l = some b.prevId
  mem : b ∈ n.blocks

theorem binding : Binding n.id (fun b => b.prevId) n.genesis n.blocks where
  prev_eq a ha b hb h := congrArg BlockHeader.prevId (toBlockHeader_eq (n.blob_eq a ha b hb h))
  rooted b hb h := n.ne_null b hb (h.trans n.prevId_genesis)

variable {n} {l m : List Block} {a b : Block}

theorem Below.ids_eq (hl : n.Below l a) (hm : n.Below m b) (h : a.prevId = b.prevId) :
    l.map n.id = m.map n.id :=
  hl.branch.map_ident_eq n.binding hm.branch (by rw [hl.tip, hm.tip, h])

theorem Below.length_eq (hl : n.Below l a) (hm : n.Below m b) (h : a.prevId = b.prevId) :
    l.length = m.length := by
  rw [← List.length_map n.id, hl.ids_eq hm h, List.length_map]

theorem Below.length_pos (h : n.Below l b) : 0 < l.length :=
  List.length_pos_of_ne_nil h.branch.ne_nil

theorem Below.concat (h : n.Below l b) : n.Branch (l ++ [b]) := h.branch.concat h.tip h.mem

def PowOf (b : Block) (height : ℕ) (pow : Hash) : Prop :=
  ∃ l, n.Below l b ∧ l.length = height ∧
    (height ≠ 202612 → pow = slowHash n.toHashFunctions (l.map n.id) b)

theorem powOf_unique {height height' : ℕ} {pow pow' : Hash} (h : n.PowOf a height pow)
    (h' : n.PowOf b height' pow') (hid : n.id a = n.id b) :
    height = height' ∧ (height ≠ 202612 → pow = pow') := by
  obtain ⟨l, hl, hlen, hpow⟩ := h
  obtain ⟨m, hm, hlen', hpow'⟩ := h'
  have hblob := n.blob_eq a hl.mem b hm.mem hid
  have hhead := toBlockHeader_eq hblob
  have hprev : a.prevId = b.prevId := congrArg BlockHeader.prevId hhead
  have hheight : height = height' := by rw [← hlen, ← hlen', hl.length_eq hm hprev]
  refine ⟨hheight, fun hne => ?_⟩
  rw [hpow hne, hpow' (hheight ▸ hne), slowHash, slowHash, hblob, hhead, hl.ids_eq hm hprev]

end Network

variable (n : Network)

structure StoreInv (db : List DbBlock) (altBlocks : AltBlocks) : Prop where
  branch : n.Branch (db.map DbBlock.bl)
  alt : ∀ {k bei}, altBlocks.lookup k = some bei →
    n.id bei.bl = k ∧ ∃ l, n.Below l bei.bl ∧ l.length = bei.height

structure Inv (s : Blockchain) : Prop where
  store : StoreInv n s.db s.altBlocks
  batch : ∀ b ∈ s.batch, StoreInv n b.1 b.2
  checks : ∀ check ∈ s.powChecks, n.PowOf check.bl check.height check.proofOfWork
  idle : s.prepareHeight = 0

def TableSound (s : Blockchain) : Prop :=
  ∀ e ∈ s.blocksLonghashTable.entries, ∃ b height, n.id b = e.1 ∧ n.PowOf b height e.2

variable {n} {s : Blockchain} {r : Rules} {bl : Block} {bvc : BlockVerificationContext}

theorem tableSound_of_empty (h : s.blocksLonghashTable = ∅) : TableSound n s := by
  intro e he
  rw [h] at he
  cases he

theorem Blockchain.ids_eq : s.ids n.toHashFunctions = (s.db.map DbBlock.bl).map n.id := by
  rw [Blockchain.ids, List.map_map]
  rfl

theorem Blockchain.length_ids : (s.ids n.toHashFunctions).length = s.db.length := by
  rw [Blockchain.ids, List.length_map]

theorem Inv.tip_eq (h : Inv n s) : tip n.id (s.db.map DbBlock.bl) = some (s.getTailId n.toHashFunctions) := by
  have hne : s.ids n.toHashFunctions ≠ [] := by
    rw [Blockchain.ids_eq, ne_eq, List.map_eq_nil_iff]
    exact h.store.branch.ne_nil
  rw [tip, ← List.getLast?_map, ← Blockchain.ids_eq, Blockchain.getTailId,
    List.getLast?_eq_some_getLast hne, Option.getD_some]

theorem Inv.below (h : Inv n s) (hprev : bl.prevId = s.getTailId n.toHashFunctions) (hbl : bl ∈ n.blocks) :
    n.Below (s.db.map DbBlock.bl) bl :=
  ⟨h.store.branch, by rw [h.tip_eq, hprev], hbl⟩

theorem powOf_blockLonghash {l : List Block} (hl : n.Below l bl)
    (hseed : bl.majorVersion ≥ rxBlockVersion →
      (l.map n.id)[rxSeedheight l.length]? =
        some (s.getPendingBlockIdByHeight n.toHashFunctions (rxSeedheight l.length))) :
    n.PowOf bl l.length (s.blockLonghash n.toHashFunctions bl l.length) := by
  refine ⟨l, hl, rfl, fun hne => ?_⟩
  rw [← List.length_map n.id] at hne hseed ⊢
  apply getBlockLonghash_eq_slowHash hne
  intro hrx
  rw [if_pos hrx]
  exact hseed hrx

theorem Inv.getPendingBlockIdByHeight (h : Inv n s) {i : ℕ} (hi : i < s.db.length) :
    (s.ids n.toHashFunctions)[i]? = some (s.getPendingBlockIdByHeight n.toHashFunctions i) := by
  rw [Blockchain.getPendingBlockIdByHeight, if_neg (by simp [h.idle]), Blockchain.getBlockIdByHeight,
    List.getElem?_eq_getElem (by rwa [Blockchain.length_ids]), Option.getD_some]

theorem Inv.powOf_proofOfWork (h : Inv n s) (ht : TableSound n s) (hbl : bl ∈ n.blocks)
    (hprev : bl.prevId = s.getTailId n.toHashFunctions) :
    n.PowOf bl s.db.length (s.proofOfWork n.toHashFunctions bl) := by
  have hbelow := h.below hprev hbl
  have hcomputed : n.PowOf bl s.db.length (s.blockLonghash n.toHashFunctions bl s.db.length) := by
    have hpow := powOf_blockLonghash (s := s) hbelow
    simp only [List.length_map, ← Blockchain.ids_eq] at hpow
    apply hpow
    intro _
    apply h.getPendingBlockIdByHeight
    apply rxSeedheight_lt
    simpa using hbelow.length_pos
  rw [Blockchain.proofOfWork]
  split
  case h_2 => exact hcomputed
  case h_1 pow hfind =>
    -- the block that the table was filled for has the same parent, so the same ancestors
    obtain ⟨b, height, hid, hb⟩ := ht _ (UnorderedMap.mem_of_find? hfind)
    obtain ⟨hheight, hpow⟩ := Network.powOf_unique hb hcomputed hid
    obtain ⟨l, hl, hlen, hval⟩ := hcomputed
    refine ⟨l, hl, hlen, fun hne => ?_⟩
    exact (hpow (hheight ▸ hne)).trans (hval hne)

theorem Inv.compare (h : Inv n s) (path : Path) {height : ℕ} {pow : Hash} (hpow : n.PowOf bl height pow) :
    Inv n (s.compare path height bl pow) where
  store := h.store
  batch := h.batch
  checks check hcheck := by
    rcases List.mem_append.mp hcheck with hcheck | hcheck
    · exact h.checks check hcheck
    · rw [List.mem_singleton.mp hcheck]
      exact hpow
  idle := h.idle

theorem Inv.popBlock {s' : Blockchain} (h : Inv n s) (hpop : s.popBlockFromBlockchain = some (s', bl)) :
    Inv n s' ∧ bl ∈ n.blocks ∧ s'.blocksLonghashTable = ∅ := by
  rw [Blockchain.popBlockFromBlockchain] at hpop
  split_ifs at hpop with hlen
  obtain ⟨e, he, heq⟩ := Option.map_eq_some_iff.mp hpop
  cases heq
  have hdb : s.db.dropLast ++ [e] = s.db := List.dropLast_append_getLast? e he
  have hbranch := h.store.branch
  refine ⟨⟨⟨?_, h.store.alt⟩, h.batch, h.checks, h.idle⟩, ?_, rfl⟩
  · rw [← hdb, List.map_append] at hbranch
    apply hbranch.left
    rw [ne_eq, List.map_eq_nil_iff, ← List.length_eq_zero_iff, List.length_dropLast]
    omega
  · exact hbranch.mem _ (List.mem_map_of_mem (List.mem_of_getLast? he))

theorem Inv.popWhile (go : Blockchain → Bool) (fuel : ℕ) {popped : List Block} (h : Inv n s)
    (hp : ∀ b ∈ popped, b ∈ n.blocks) :
    Inv n (Blockchain.popWhile go fuel s popped).1 ∧
      (∀ b ∈ (Blockchain.popWhile go fuel s popped).2, b ∈ n.blocks) ∧
      ((Blockchain.popWhile go fuel s popped).1 = s ∨
        (Blockchain.popWhile go fuel s popped).1.blocksLonghashTable = ∅) := by
  induction fuel generalizing s popped with
  | zero => exact ⟨h, hp, .inl rfl⟩
  | succ fuel ih =>
    rw [Blockchain.popWhile]
    split_ifs
    · split
      case h_1 => exact ⟨h, hp, .inl rfl⟩
      case h_2 s' b hpop =>
        obtain ⟨hs', hb, htable⟩ := h.popBlock hpop
        obtain ⟨hinv, hmem, hsame⟩ := ih hs' (List.forall_mem_cons.mpr ⟨hb, hp⟩)
        refine ⟨hinv, hmem, .inr ?_⟩
        rcases hsame with hsame | hempty
        · rw [hsame, htable]
        · exact hempty
    · exact ⟨h, hp, .inl rfl⟩

theorem Inv.tableSound_popWhile (go : Blockchain → Bool) (fuel : ℕ) {popped : List Block} (h : Inv n s)
    (hp : ∀ b ∈ popped, b ∈ n.blocks) (ht : TableSound n s) :
    TableSound n (Blockchain.popWhile go fuel s popped).1 := by
  rcases (h.popWhile go fuel hp).2.2 with hsame | hempty
  · rw [hsame]
    exact ht
  · exact tableSound_of_empty hempty

structure Sound (n : Network) (s : Blockchain) : Prop where
  inv : Inv n s
  table : TableSound n s

theorem Sound.addBlockToMainChain (h : Sound n s) (fastCheck : Bool) (diffic : Difficulty)
    (hprev : bl.prevId = s.getTailId n.toHashFunctions) (hbl : bl ∈ n.blocks) :
    Sound n (s.addBlockToMainChain n.toHashFunctions r fastCheck bl diffic bvc).chain := by
  have hinvalid : ∀ l, Sound n { s with invalidBlocks := l } :=
    fun l => ⟨⟨h.inv.store, h.inv.batch, h.inv.checks, h.inv.idle⟩, h.table⟩
  have hfailed : Sound n { s with batchSuccess := false } :=
    ⟨⟨h.inv.store, h.inv.batch, h.inv.checks, h.inv.idle⟩, h.table⟩
  have hadded : ∀ d, Sound n { s with db := s.db ++ [⟨bl, d⟩] } := by
    intro d
    refine ⟨⟨⟨?_, h.inv.store.alt⟩, h.inv.batch, h.inv.checks, h.inv.idle⟩, h.table⟩
    rw [List.map_append]
    exact (h.inv.below hprev hbl).concat
  rw [Blockchain.addBlockToMainChain]
  dsimp only
  split
  · exact h
  split
  · exact hinvalid _
  split
  · exact hfailed
  split
  · cases hpop : Blockchain.popBlockFromBlockchain _ with
    | none => exact hadded _
    | some popped =>
      obtain ⟨hinv, -, hempty⟩ := (hadded _).inv.popBlock hpop
      exact ⟨hinv, tableSound_of_empty hempty⟩
  · exact hadded _

theorem Sound.handleBlockToMainChain (h : Sound n s) (hbl : bl ∈ n.blocks) :
    Sound n (s.handleBlockToMainChain n.toHashFunctions r bl bvc).chain := by
  rw [Blockchain.handleBlockToMainChain]
  by_cases hprev : bl.prevId = s.getTailId n.toHashFunctions
  case neg =>
    rw [if_pos hprev]
    exact h
  have hcompared : Sound n (s.compare .main s.db.length bl (s.proofOfWork n.toHashFunctions bl)) :=
    ⟨h.inv.compare .main (h.inv.powOf_proofOfWork h.table hbl hprev), h.table⟩
  rw [if_neg (not_not.mpr hprev)]
  split
  · exact h
  dsimp only
  split
  · exact h
  split
  · split
    · exact h
    · exact h.addBlockToMainChain true _ hprev hbl
  · split
    · exact hcompared
    · exact hcompared.addBlockToMainChain false _ hprev hbl

theorem Sound.connect {blocks : List Block} (h : Sound n s) (hb : ∀ b ∈ blocks, b ∈ n.blocks) :
    Sound n (s.connect n.toHashFunctions r blocks).1 := by
  induction blocks generalizing s with
  | nil => exact h
  | cons b rest ih =>
    obtain ⟨hb, hrest⟩ := List.forall_mem_cons.mp hb
    have hstep : Sound n (s.handleBlockToMainChain n.toHashFunctions r b {}).chain :=
      h.handleBlockToMainChain hb
    rw [Blockchain.connect]
    split_ifs
    · exact ih hstep hrest
    · exact hstep

theorem Sound.popWhile (go : Blockchain → Bool) (fuel : ℕ) (h : Sound n s) :
    Sound n (Blockchain.popWhile go fuel s []).1 :=
  have hnil : ∀ b ∈ ([] : List Block), b ∈ n.blocks := by simp
  ⟨(h.inv.popWhile go fuel hnil).1, h.inv.tableSound_popWhile go fuel hnil h.table⟩

theorem Sound.rollback {blocks : List Block} {height : ℕ} (h : Sound n s) (hb : ∀ b ∈ blocks, b ∈ n.blocks) :
    Sound n (s.rollbackBlockchainSwitching n.toHashFunctions r blocks height) := by
  rw [Blockchain.rollbackBlockchainSwitching]
  split_ifs
  · exact h
  · exact (h.popWhile _ _).connect hb

end Velkavo.Core
