import Velkavo.Core.Incoming

namespace Velkavo.Core.Longhash202612

open ByteCodec ByteCodec.Codec Cryptonote HashChain

/-! A network in which the identifier and the slow hash of a block are made of its nonce. -/

def pad (l : Bytes) : Hash := ⟨(l ++ List.replicate 32 1).take 32, by simp⟩

def hashes : HashFunctions where
  cnFastHash blob := pad ((blob.drop 36).take 4)
  treeHash _ := nullHash
  getTransactionHash _ := nullHash
  rxSlowHash _ blob := pad ((blob.drop 35).take 4)
  cnSlowHash blob _ _ := pad ((blob.drop 35).take 4)

def blockAt (height : ℕ) (prevId : Hash) (nonce : ℕ) : Block where
  majorVersion := 1
  minorVersion := 0
  timestamp := 0
  prevId := prevId
  nonce := UInt32.ofNat nonce
  minerTx := ⟨⟨2, 0, [.gen (UInt64.ofNat height)], [], []⟩, [], default, false⟩
  txHashes := []

theorem bytes_pad {l : Bytes} (h : l.length ≤ 4) : (pad l).bytes = l ++ List.replicate (32 - l.length) 1 := by
  change (l ++ List.replicate 32 (1 : UInt8)).take 32 = _
  rw [List.take_append, List.take_of_length_le (by omega), List.take_replicate]
  congr 2
  omega

theorem last_pad {l : Bytes} (h : l.length ≤ 4) : (pad l).bytes.getLast? = some 1 := by
  rw [bytes_pad h, List.getLast?_append_of_ne_nil _ (by rw [ne_eq, List.replicate_eq_nil_iff]; omega),
    List.getLast?_replicate, if_neg (by omega)]

theorem pad_ne {l : Bytes} {x : Hash} (h : l.length ≤ 4) (hx : x.bytes.getLast? ≠ some 1) : pad l ≠ x := by
  rintro rfl
  exact hx (last_pad h)

theorem pad_injective {a b : ℕ} (ha : a < 2 ^ 32) (hb : b < 2 ^ 32)
    (h : pad (littleEndian 4 a) = pad (littleEndian 4 b)) : a = b := by
  have hbytes := congrArg Blob.bytes h
  rw [bytes_pad (littleEndian_length 4 a).le, bytes_pad (littleEndian_length 4 b).le] at hbytes
  have hlist : littleEndian 4 a = littleEndian 4 b :=
    (List.append_inj hbytes (by rw [littleEndian_length, littleEndian_length])).1
  rw [← ofLittleEndian_littleEndian 4 a ha, hlist, ofLittleEndian_littleEndian 4 b hb]

theorem getBlockHashingBlob_blockAt (height : ℕ) (prevId : Hash) (nonce : ℕ) :
    getBlockHashingBlob hashes (blockAt height prevId nonce) =
      [1, 0, 0] ++ (prevId.bytes ++ (littleEndian 4 (UInt32.ofNat nonce).toNat ++ (nullHash.bytes ++ [1]))) := by
  change ([1] ++ ([0] ++ ([0] ++ (prevId.bytes ++ littleEndian 4 (UInt32.ofNat nonce).toNat)))) ++
    (nullHash.bytes ++ [1]) = _
  simp only [List.append_assoc]
  rfl

theorem nonce_of_blob (height : ℕ) (prevId : Hash) {nonce : ℕ} (hn : nonce < 2 ^ 32) :
    ((getBlockHashingBlob hashes (blockAt height prevId nonce)).drop 35).take 4 = littleEndian 4 nonce := by
  have hprev : ([1, 0, 0] ++ prevId.bytes : Bytes).length = 35 := by rw [List.length_append, prevId.length_eq]; rfl
  rw [getBlockHashingBlob_blockAt, ← List.append_assoc, List.drop_left' hprev, UInt32.toNat_ofNat_of_lt' hn,
    List.take_left' (littleEndian_length 4 nonce)]

theorem getBlockHash_blockAt (height : ℕ) (prevId : Hash) {nonce : ℕ} (hn : nonce < 2 ^ 32) :
    getBlockHash hashes (blockAt height prevId nonce) = pad (littleEndian 4 nonce) := by
  have hlen : (getBlockHashingBlob hashes (blockAt height prevId nonce)).length = 72 := by
    rw [getBlockHashingBlob_blockAt]
    simp only [List.length_append, prevId.length_eq, littleEndian_length, nullHash.length_eq]
    rfl
  have hwrite : byteString.write (getBlockHashingBlob hashes (blockAt height prevId nonce)) =
      72 :: getBlockHashingBlob hashes (blockAt height prevId nonce) := by
    change writeVarint _ ++ List.flatMap (fun b => [b]) _ = _
    rw [hlen, writeVarint_small (by decide), List.flatMap_singleton']
    rfl
  have hres : hashes.cnFastHash (byteString.write (getBlockHashingBlob hashes (blockAt height prevId nonce))) =
      pad (littleEndian 4 nonce) := by
    rw [hwrite, ← nonce_of_blob height prevId hn]
    rfl
  have hcorrect : ∀ blob, hashes.cnFastHash blob ≠ correctBlobHash202612 :=
    fun blob => pad_ne (List.length_take_le _ _) (by decide)
  have hexisting : pad (littleEndian 4 nonce) ≠ existingBlockId202612 :=
    pad_ne (littleEndian_length 4 nonce).le (by decide)
  rw [getBlockHash, calculateBlockHash, hres]
  split_ifs with hheight hblob
  · rfl
  · exact absurd hblob (hcorrect _)
  · rfl

theorem slowHash_blockAt (ids : List Hash) (height : ℕ) (prevId : Hash) {nonce : ℕ} (hn : nonce < 2 ^ 32) :
    slowHash hashes ids (blockAt height prevId nonce) = pad (littleEndian 4 nonce) := by
  have hversion : ¬(blockAt height prevId nonce).majorVersion ≥ rxBlockVersion :=
    (by decide : ¬(1 : UInt8) ≥ rxBlockVersion)
  rw [slowHash, if_neg hversion]
  exact congrArg pad (nonce_of_blob height prevId hn)

def rules : Rules where
  points := ∅
  checkHash _ _ := true
  checkIncomingBlockSize _ := true
  makeFullPoolSupplement _ := true
  requestedSpan _ := true
  checkMain _ _ := true
  getDifficultyForNextBlock _ := 1
  validateMain _ _ _ := none
  addBlock _ _ := true
  updateNextCumulativeWeightLimit _ := true
  checkForHeight _ _ := true
  checkBlockTimestamp _ _ _ := true
  getNextDifficultyForAlternativeChain _ _ _ := 1
  validateAlternative _ _ _ := none

structure At (s : Blockchain) (l : List Block) : Prop where
  db : s.db.map DbBlock.bl = l
  altBlocks : s.altBlocks = ∅
  blocksLonghashTable : s.blocksLonghashTable = ∅
  blocksHashCheck : s.blocksHashCheck = []
  invalidBlocks : s.invalidBlocks = []

variable {c : HashFunctions} {s : Blockchain} {l : List Block} {b : Block} {fuel : ℕ}

theorem At.ids_eq (h : At s l) : s.ids c = l.map (getBlockHash c) := by
  rw [Blockchain.ids, ← h.db, List.map_map]
  rfl

theorem At.handleBlockToMainChain (h : At s l) (hprev : (l.map (getBlockHash c)).getLast? = some b.prevId) :
    ∃ d, (s.handleBlockToMainChain c rules b {}).chain =
      { s.compare .main l.length b (s.blockLonghash c b l.length) with db := s.db ++ [⟨b, d⟩] } := by
  have hlen : s.db.length = l.length := by rw [← h.db, List.length_map]
  have htail : ¬b.prevId ≠ s.getTailId c := by rw [Blockchain.getTailId, h.ids_eq, hprev, not_not]; rfl
  have hexpected : s.expectedHash s.db.length = none := by rw [Blockchain.expectedHash, h.blocksHashCheck]; rfl
  have hpow : s.proofOfWork c b = s.blockLonghash c b l.length := by
    rw [Blockchain.proofOfWork, h.blocksLonghashTable, hlen]
    rfl
  have hcheck : ¬(!rules.checkMain s b) = true := Bool.false_ne_true
  have hdiffic : rules.getDifficultyForNextBlock s ≠ 0 := (by decide : (1 : Difficulty) ≠ 0)
  rw [Blockchain.handleBlockToMainChain, if_neg htail, if_neg hcheck]
  dsimp only
  rw [if_neg hdiffic, hexpected, hpow, ← hlen]
  exact ⟨_, rfl⟩

theorem At.single (h : At s l) (hprev : (l.map (getBlockHash c)).getLast? = some b.prevId)
    (hnew : getBlockHash c b ∉ l.map (getBlockHash c)) :
    At (s.handleSingleIncomingBlock c fuel rules b) (l ++ [b]) ∧
      ∃ pow, (s.handleSingleIncomingBlock c fuel rules b).powChecks =
        s.powChecks ++ [⟨.main, l.length, b, pow⟩] ∧ (l.length = 202612 → pow = longhash202612) := by
  have hstart : At s.batchStart l :=
    ⟨h.db, h.altBlocks, h.blocksLonghashTable, h.blocksHashCheck, h.invalidBlocks⟩
  obtain ⟨d, hmain⟩ := hstart.handleBlockToMainChain hprev
  have hhave : s.batchStart.haveBlock c (getBlockHash c b) = false := by
    rw [Blockchain.haveBlock, Blockchain.blockExists, hstart.ids_eq, hstart.altBlocks, hstart.invalidBlocks,
      decide_eq_false hnew]
    rfl
  have htail : ¬b.prevId ≠ s.batchStart.getTailId c := by
    rw [Blockchain.getTailId, hstart.ids_eq, hprev, not_not]
    rfl
  have hadd : (s.batchStart.handleIncomingBlock c fuel rules b).chain =
      { s.batchStart.compare .main l.length b (s.batchStart.blockLonghash c b l.length) with
        db := s.db ++ [⟨b, d⟩] } := by
    have hsize : ¬(!rules.checkIncomingBlockSize b) = true := Bool.false_ne_true
    rw [Blockchain.handleIncomingBlock, if_neg hsize, Blockchain.addNewBlock, if_neg (by rw [hhave]; decide),
      if_neg htail, hmain]
    rfl
  rw [Blockchain.handleSingleIncomingBlock, hadd]
  refine ⟨⟨?_, h.altBlocks, rfl, ?_, h.invalidBlocks⟩, _, rfl, fun hlen => ?_⟩
  · change (s.db ++ [_]).map DbBlock.bl = _
    rw [List.map_append, h.db]
    rfl
  · change (if _ then [] else s.blocksHashCheck) = []
    rw [h.blocksHashCheck, ite_self]
  · rw [Blockchain.blockLonghash, getBlockLonghash, if_pos hlen]

theorem At.popBlock (h : At s (l ++ [b])) (hl : l ≠ []) :
    At (s.popBlocks 1) l ∧ (s.popBlocks 1).powChecks = s.powChecks := by
  have hlen : s.db.length = l.length + 1 := by
    rw [← List.length_map DbBlock.bl, h.db, List.length_append]
    rfl
  have hpos := List.length_pos_of_ne_nil hl
  obtain ⟨e, he⟩ := Option.isSome_iff_exists.mp
    (List.getLast?_isSome.mpr (List.ne_nil_of_length_pos (by omega : 0 < s.db.length)))
  have hpop : s.popBlocks 1 = { s with db := s.db.dropLast, blocksLonghashTable := ∅ } := by
    rw [Blockchain.popBlocks, Nat.min_eq_left (by omega), Blockchain.popWhile, if_pos rfl,
      Blockchain.popBlockFromBlockchain, if_pos (by omega), he]
    rfl
  rw [hpop]
  refine ⟨⟨?_, h.altBlocks, rfl, h.blocksHashCheck, h.invalidBlocks⟩, rfl⟩
  change s.db.dropLast.map DbBlock.bl = l
  rw [List.map_dropLast, h.db, List.dropLast_concat]

def chainBlock : ℕ → Block
  | 0 => blockAt 0 nullHash 0
  | k + 1 => blockAt (k + 1) (pad (littleEndian 4 k)) (k + 1)

def rival : Block := blockAt 202612 (pad (littleEndian 4 202611)) 300000

def blockNo (k : ℕ) : Block := if k = 300000 then rival else chainBlock k

theorem getBlockHash_chainBlock {k : ℕ} (hk : k < 2 ^ 32) :
    getBlockHash hashes (chainBlock k) = pad (littleEndian 4 k) := by
  cases k with
  | zero => exact getBlockHash_blockAt 0 nullHash hk
  | succ k => exact getBlockHash_blockAt _ _ hk

theorem getBlockHash_blockNo {k : ℕ} (hk : k < 2 ^ 32) :
    getBlockHash hashes (blockNo k) = pad (littleEndian 4 k) := by
  rw [blockNo]
  split_ifs with hrival
  · rw [hrival]
    exact getBlockHash_blockAt _ _ (by decide)
  · exact getBlockHash_chainBlock hk

def network : Network where
  toHashFunctions := hashes
  genesis := chainBlock 0
  blocks := { b | ∃ k ≤ 300000, b = blockNo k }
  genesis_mem := ⟨0, by decide, rfl⟩
  prevId_genesis := rfl
  blob_eq := by
    rintro a ⟨j, hj, rfl⟩ b ⟨k, hk, rfl⟩ hid
    rw [getBlockHash_blockNo (by omega), getBlockHash_blockNo (by omega)] at hid
    rw [pad_injective (by omega) (by omega) hid]
  ne_null := by
    rintro b ⟨k, hk, rfl⟩
    rw [getBlockHash_blockNo (by omega)]
    exact pad_ne (littleEndian_length 4 k).le (by decide)

def climbed (k : ℕ) : Blockchain :=
  { Blockchain.start (chainBlock 0) with db := (List.range k).map fun i => ⟨chainBlock i, 1⟩ }

theorem db_climbed (k : ℕ) : (climbed k).db.map DbBlock.bl = (List.range k).map chainBlock := by
  rw [climbed, List.map_map]
  rfl

theorem branch_climbed {k : ℕ} (hk : k < 300000) : network.Branch ((climbed (k + 1)).db.map DbBlock.bl) := by
  rw [db_climbed]
  have hmem : ∀ i < 300000, chainBlock i ∈ network.blocks := fun i hi =>
    ⟨i, by omega, by rw [blockNo, if_neg (by omega)]⟩
  induction k with
  | zero => exact Branch.single (hmem 0 hk)
  | succ k ih =>
    rw [List.range_succ, List.map_append]
    refine (ih (by omega)).concat ?_ (hmem _ hk)
    rw [List.range_succ, List.map_append, List.map_singleton, tip_concat]
    exact congrArg some (getBlockHash_chainBlock (by omega))

def climb (k : ℕ) : List (Rules × Action) :=
  (List.range k).map fun i => (rules, .singleIncomingBlock (chainBlock (i + 1)))

theorem tip_chain {k : ℕ} (hk : k < 2 ^ 32) :
    (((List.range (k + 1)).map chainBlock).map (getBlockHash hashes)).getLast? = some (pad (littleEndian 4 k)) := by
  rw [List.range_succ]
  simp [getBlockHash_chainBlock hk]

theorem notMem_chain {k j : ℕ} (hj : k < j) (hlt : j < 2 ^ 32) :
    pad (littleEndian 4 j) ∉ ((List.range (k + 1)).map chainBlock).map (getBlockHash hashes) := by
  intro hmem
  obtain ⟨b, hb, hid⟩ := List.mem_map.mp hmem
  obtain ⟨i, hi, rfl⟩ := List.mem_map.mp hb
  rw [List.mem_range] at hi
  rw [getBlockHash_chainBlock (by omega)] at hid
  have := pad_injective (by omega) hlt hid
  omega

theorem at_climb {k : ℕ} (hk : k < 300000) :
    At (run hashes fuel (.start (chainBlock 0)) (climb k)) ((List.range (k + 1)).map chainBlock) := by
  induction k with
  | zero => exact ⟨rfl, rfl, rfl, rfl, rfl⟩
  | succ k ih =>
    have hstep : run hashes fuel (.start (chainBlock 0)) (climb (k + 1)) =
        (run hashes fuel (.start (chainBlock 0)) (climb k)).handleSingleIncomingBlock hashes fuel rules
          (chainBlock (k + 1)) := by
      rw [climb, List.range_succ, List.map_append, run_append]
      rfl
    rw [hstep, List.range_succ, List.map_append]
    refine ((ih (by omega)).single (tip_chain (by omega)) ?_).1
    rw [getBlockHash_chainBlock (by omega)]
    exact notMem_chain (Nat.lt_succ_self k) (by omega)

def climbAndFork (k : ℕ) (b : Block) : List (Rules × Action) :=
  climb k ++ [(rules, .singleIncomingBlock (chainBlock (k + 1))), (rules, .popBlocks 1),
    (rules, .singleIncomingBlock b)]

theorem powChecks_climbAndFork (fuel : ℕ) {k j : ℕ} (hk : k + 1 < 300000) (hj : k < j) (hlt : j < 2 ^ 32)
    (hprev : b.prevId = pad (littleEndian 4 k)) (hid : getBlockHash hashes b = pad (littleEndian 4 j)) :
    ∃ checks p q, (run hashes fuel (.start (chainBlock 0)) (climbAndFork k b)).powChecks =
        checks ++ [⟨.main, k + 1, chainBlock (k + 1), p⟩, ⟨.main, k + 1, b, q⟩] ∧
      (k + 1 = 202612 → p = longhash202612 ∧ q = longhash202612) := by
  have hclimb : At (run hashes fuel (.start (chainBlock 0)) (climb k)) ((List.range (k + 1)).map chainBlock) :=
    at_climb (by omega)
  generalize hs : run hashes fuel (.start (chainBlock 0)) (climb k) = s at hclimb
  have hrun : run hashes fuel (.start (chainBlock 0)) (climbAndFork k b) =
      ((s.handleSingleIncomingBlock hashes fuel rules (chainBlock (k + 1))).popBlocks 1).handleSingleIncomingBlock
        hashes fuel rules b := by
    rw [climbAndFork, run_append, hs]
    simp only [run, List.foldl_cons, List.foldl_nil, step]
  have hnew : getBlockHash hashes (chainBlock (k + 1)) ∉
      ((List.range (k + 1)).map chainBlock).map (getBlockHash hashes) := by
    rw [getBlockHash_chainBlock (by omega)]
    exact notMem_chain (Nat.lt_succ_self k) (by omega)
  obtain ⟨hfirst, p, hp, hpow⟩ := hclimb.single (tip_chain (by omega)) hnew
  obtain ⟨hpopped, hsame⟩ := hfirst.popBlock (by simp)
  obtain ⟨-, q, hq, hqow⟩ := hpopped.single (by rw [tip_chain (by omega), hprev]) (by
    rw [hid]
    exact notMem_chain hj hlt)
  rw [List.length_map, List.length_range] at hp hpow hq hqow
  refine ⟨s.powChecks, p, q, ?_, fun heq => ⟨hpow heq, hqow heq⟩⟩
  rw [hrun, hq, hsame, hp, List.append_assoc]
  rfl

theorem run_climbAndFork : Run network (climbAndFork 202611 rival) := by
  intro a ha b hb
  rcases List.mem_append.mp ha with ha | ha
  · obtain ⟨i, hi, rfl⟩ := List.mem_map.mp ha
    rw [List.mem_range] at hi
    rw [List.mem_singleton.mp hb]
    exact ⟨i + 1, by omega, by rw [blockNo, if_neg (by omega)]⟩
  · simp only [List.mem_cons, List.not_mem_nil, or_false] at ha
    rcases ha with rfl | rfl | rfl
    · rw [List.mem_singleton.mp hb]
      exact ⟨202612, by decide, by rw [blockNo, if_neg (by decide)]⟩
    · cases hb
    · rw [List.mem_singleton.mp hb]
      exact ⟨300000, by decide, by rw [blockNo, if_pos rfl]⟩

theorem powChecks_202612 (fuel : ℕ) :
    ∃ checks, (run hashes fuel (.start (chainBlock 0)) (climbAndFork 202611 rival)).powChecks =
      checks ++ [⟨.main, 202612, chainBlock 202612, longhash202612⟩, ⟨.main, 202612, rival, longhash202612⟩] := by
  have hrival : getBlockHash hashes rival = pad (littleEndian 4 300000) := getBlockHash_blockAt _ _ (by decide)
  obtain ⟨checks, p, q, hchecks, hpow⟩ := powChecks_climbAndFork fuel (by decide : 202611 + 1 < 300000)
    (by decide : 202611 < 300000) (by decide) rfl hrival
  obtain ⟨rfl, rfl⟩ := hpow rfl
  exact ⟨checks, hchecks⟩

theorem pad_ne_longhash202612 (k : ℕ) : longhash202612 ≠ pad (littleEndian 4 k) :=
  (pad_ne (littleEndian_length 4 k).le (by decide)).symm

theorem powBound_iff (height : ℕ) :
    (∀ (n : Network) (fuel : ℕ) (actions : List (Rules × Action)), Run n actions →
      PowBound n (run n.toHashFunctions fuel (.start n.genesis) actions) height) ↔ height ≠ 202612 := by
  constructor
  · rintro h rfl
    obtain ⟨checks, hchecks⟩ := powChecks_202612 1
    have hbound := h network 1 _ run_climbAndFork
    obtain ⟨l, -, -, hown⟩ := hbound.own ⟨.main, 202612, chainBlock 202612, longhash202612⟩
      (by change _ ∈ (run hashes 1 (.start (chainBlock 0)) _).powChecks; rw [hchecks]; simp) rfl
    exact pad_ne_longhash202612 202612 (hown.trans (slowHash_blockAt _ _ _ (by decide)))
  · intro hne n fuel actions hactions
    exact powBound_of_inv ((sound_start n).run hactions).inv hne

theorem checked_202612_independent :
    Run network (climbAndFork 202611 rival) ∧
      ∃ a ∈ (run hashes 1 (.start network.genesis) (climbAndFork 202611 rival)).powChecks,
      ∃ b ∈ (run hashes 1 (.start network.genesis) (climbAndFork 202611 rival)).powChecks,
        a.height = 202612 ∧ b.height = 202612 ∧
        getBlockHashingBlob hashes a.bl ≠ getBlockHashingBlob hashes b.bl ∧
        (∀ ids, slowHash hashes ids a.bl ≠ slowHash hashes ids b.bl) ∧
        a.proofOfWork = longhash202612 ∧ b.proofOfWork = longhash202612 := by
  obtain ⟨checks, hchecks⟩ := powChecks_202612 1
  have hdiffer : ∀ ids, slowHash hashes ids (chainBlock 202612) ≠ slowHash hashes ids rival := by
    intro ids heq
    have hnonce := (slowHash_blockAt ids _ _ (by decide)).symm.trans
      (heq.trans (slowHash_blockAt ids _ _ (by decide)))
    exact absurd (pad_injective (by decide) (by decide) hnonce) (by decide)
  refine ⟨run_climbAndFork, ⟨.main, 202612, chainBlock 202612, longhash202612⟩, ?_,
    ⟨.main, 202612, rival, longhash202612⟩, ?_, rfl, rfl, ?_, hdiffer, rfl, rfl⟩
  · change _ ∈ (run hashes 1 (.start (chainBlock 0)) _).powChecks
    rw [hchecks]
    simp
  · change _ ∈ (run hashes 1 (.start (chainBlock 0)) _).powChecks
    rw [hchecks]
    simp
  · intro hblob
    apply hdiffer []
    have hhead := toBlockHeader_eq hblob
    rw [slowHash, slowHash, hhead, hblob]

end Velkavo.Core.Longhash202612
