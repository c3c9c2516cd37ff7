import Velkavo.Core.CoinSupply
import Velkavo.TxPool.BlockTemplate

/-! A template pays what a block of its weight may pay. -/

namespace Velkavo.Core

theorem umax_le {a b c : UInt64} (ha : a ≤ c) (hb : b ≤ c) : max a b ≤ c := by
  rw [show max a b = if a ≤ b then b else a from rfl]
  split_ifs
  · exact hb
  · exact ha

theorem umin_le_left (a b : UInt64) : min a b ≤ a := by
  rw [show min a b = if a ≤ b then a else b from rfl]
  split_ifs with h
  · exact UInt64.le_refl a
  · exact UInt64.le_of_lt (UInt64.not_le.mp h)

def halfRange : UInt64 := 0x7fffffffffffffff

structure WeightLimits.Halved (w : WeightLimits) : Prop where
  median : w.currentBlockCumulWeightMedian ≤ halfRange
  limit : w.currentBlockCumulWeightLimit = w.currentBlockCumulWeightMedian * 2

theorem WeightLimits.Halved.half {w : WeightLimits} (h : w.Halved) :
    w.currentBlockCumulWeightLimit / 2 = w.currentBlockCumulWeightMedian := by
  have hle : w.currentBlockCumulWeightMedian.toNat ≤ 0x7fffffffffffffff := UInt64.le_iff_toNat_le.mp h.median
  have hmul : (w.currentBlockCumulWeightMedian * 2).toNat = w.currentBlockCumulWeightMedian.toNat * 2 := by
    rw [UInt64.toNat_mul]
    exact Nat.mod_eq_of_lt (by change _ * 2 < 2 ^ 64; omega)
  rw [h.limit, ← UInt64.toNat_inj, UInt64.toNat_div, hmul]
  exact Nat.mul_div_cancel _ Nat.two_pos

theorem WeightLimits.halved_withMedian (w : WeightLimits) (version : UInt8) {median : UInt64} (h : median ≤ halfRange) :
    (w.withMedian version median).Halved := by
  refine ⟨?_, rfl⟩
  rw [WeightLimits.withMedian]
  dsimp only
  split_ifs
  · rw [getMinBlockWeight]
    split_ifs <;> decide
  · exact h

def SmallWeights (db : List BlockInfo) : Prop := ∀ b ∈ db, b.weight ≤ halfRange ∧ b.longTermBlockWeight ≤ halfRange

theorem halved_updateNextCumulativeWeightLimit {window : ℕ} {version : UInt8} {db : List BlockInfo} {w w' : WeightLimits}
    (h : updateNextCumulativeWeightLimit window version db w = some w') (hdb : SmallWeights db) : w'.Halved := by
  have hshort : median (getLastNBlocksWeights db cryptonoteRewardBlocksWindow) ≤ halfRange := by
    refine median_le fun x hx => ?_
    obtain ⟨b, hb, rfl⟩ := List.mem_map.mp hx
    exact (hdb b (List.mem_of_mem_drop hb)).1
  rw [updateNextCumulativeWeightLimit] at h
  split_ifs at h with hlow
  · cases h
    exact w.halved_withMedian version hshort
  · obtain ⟨longTerm, hlong, rfl⟩ := Option.map_eq_some_iff.mp h
    obtain ⟨m, hm, rfl⟩ := Option.map_eq_some_iff.mp hlong
    have hm' : m ≤ halfRange := by
      rw [getLongTermBlockWeightMedian] at hm
      split_ifs at hm
      cases hm
      refine median_le fun x hx => ?_
      obtain ⟨b, hb, rfl⟩ := List.mem_map.mp hx
      exact (hdb b (List.mem_of_mem_drop hb)).2
    have hzone : fullRewardZoneV5 ≤ halfRange := by decide
    refine WeightLimits.halved_withMedian _ version ?_
    rw [effectiveMedian]
    split_ifs
    · exact UInt64.le_trans (umin_le_left _ _) (umax_le (umax_le hzone hm') hshort)
    · exact UInt64.le_trans (umin_le_left _ _) (umax_le hzone hshort)

end Velkavo.Core

namespace Velkavo.TxPool

open Cryptonote ByteCodec BlockchainDb Velkavo.Core

theorem finishMinerTx_eq_some {txsWeight cumulativeWeight weight : UInt64} {minerTx tx : Transaction}
    (h : finishMinerTx txsWeight cumulativeWeight minerTx = some (tx, weight)) :
    tx = minerTx ∧ weight = cumulativeWeight ∧
      ∃ coinbaseWeight, getTransactionWeight tx = some coinbaseWeight ∧ weight = txsWeight + coinbaseWeight := by
  obtain ⟨coinbaseWeight, hweight, h⟩ := Option.bind_eq_some_iff.mp h
  obtain ⟨u, hguard, h⟩ := Option.bind_eq_some_iff.mp h
  cases h
  refine ⟨rfl, rfl, coinbaseWeight, hweight, ?_⟩
  by_contra hne
  simp [guard, hne] at hguard

theorem minerTxLoop_eq_some {construct : ℕ → UInt64 → Option Transaction} {txsWeight weight : UInt64} {tx : Transaction}
    {tries call : ℕ} {cumulativeWeight : UInt64}
    (h : minerTxLoop construct txsWeight tries call cumulativeWeight = some (tx, weight)) :
    (∃ call minerTx, construct call weight = some minerTx ∧ tx.vout = minerTx.vout) ∧
      ∃ coinbaseWeight, getTransactionWeight tx = some coinbaseWeight ∧ weight = txsWeight + coinbaseWeight := by
  induction tries generalizing call cumulativeWeight with
  | zero => cases h
  | succ tries ih =>
    rw [minerTxLoop] at h
    obtain ⟨minerTx, hminer, h⟩ := Option.bind_eq_some_iff.mp h
    obtain ⟨coinbaseWeight, -, h⟩ := Option.bind_eq_some_iff.mp h
    have hfinish : ∀ padded : Transaction, padded.vout = minerTx.vout →
        finishMinerTx txsWeight cumulativeWeight padded = some (tx, weight) →
        (∃ call minerTx, construct call weight = some minerTx ∧ tx.vout = minerTx.vout) ∧
          ∃ coinbaseWeight, getTransactionWeight tx = some coinbaseWeight ∧ weight = txsWeight + coinbaseWeight := by
      intro padded hvout hpadded
      obtain ⟨rfl, rfl, hweight⟩ := finishMinerTx_eq_some hpadded
      exact ⟨⟨call, minerTx, hminer, hvout⟩, hweight⟩
    split at h
    · exact ih h
    split at h
    · obtain ⟨paddedWeight, -, h⟩ := Option.bind_eq_some_iff.mp h
      split at h
      · exact hfinish (padExtra minerTx _) rfl h
      split at h
      · obtain ⟨shorterWeight, -, h⟩ := Option.bind_eq_some_iff.mp h
        split at h
        · exact hfinish (dropPadding (padExtra minerTx _)) rfl h
        · exact ih h
      · cases h
    · exact hfinish minerTx rfl h

namespace BlockTemplate

structure Pays (r : TxCosts) (chain : TemplateChain) (t : BlockTemplate) (coinbaseWeight reward : UInt64) : Prop where
  coinbase : getTransactionWeight t.block.minerTx = some coinbaseWeight
  weight : t.cumulativeWeight = coinbaseWeight + r.totalWeight t.block.txHashes
  baseReward : getBlockReward (chain.rewards.penaltyMedian chain.currentVersion) t.cumulativeWeight
    chain.rewards.alreadyGeneratedCoins chain.currentVersion = some reward
  outputs : t.block.minerTx.vout.length ≤ 1
  paid : getOutsMoneyAmount t.block.minerTx = reward + r.totalFee t.block.txHashes

variable {r : TxCosts} {chain : TemplateChain} {t : BlockTemplate} {coinbaseWeight reward : UInt64}

theorem claimedReward_exact (reward fee : UInt64) (version : UInt8) :
    claimedReward (reward + fee) fee reward version = some (reward, false) := by
  rw [claimedReward, if_neg (UInt64.not_lt.mpr (UInt64.le_refl _))]
  split_ifs with hexact hne hle
  · exact absurd rfl hne
  · rfl
  · simp
  · exact absurd (by simp) hle

theorem Pays.validateMinerTransaction (h : Pays r chain t coinbaseWeight reward) (hversion : 12 ≤ chain.currentVersion) :
    chain.rewards.validateMinerTransaction t.block.minerTx t.cumulativeWeight (r.totalFee t.block.txHashes)
      chain.rewards.alreadyGeneratedCoins chain.currentVersion = some (reward, false) := by
  have hthree : chain.currentVersion ≠ 3 := by
    intro heq
    rw [heq] at hversion
    exact absurd hversion (by decide)
  rw [RewardChain.validateMinerTransaction, if_neg fun hcond => hthree hcond.1, h.baseReward, h.paid]
  exact claimedReward_exact reward _ _

theorem Pays.paid_toNat (h : Pays r chain t coinbaseWeight reward)
    (hfits : reward.toNat + (t.block.txHashes.map fun id => (r.fee id).toNat).sum < 2 ^ 64) :
    (t.block.minerTx.vout.map fun o => o.amount.toNat).sum =
      reward.toNat + (t.block.txHashes.map fun id => (r.fee id).toNat).sum := by
  have hfees : (r.totalFee t.block.txHashes).toNat = (t.block.txHashes.map fun id => (r.fee id).toNat).sum := by
    have hmap : (t.block.txHashes.map r.fee).map UInt64.toNat = t.block.txHashes.map fun id => (r.fee id).toNat :=
      List.map_map
    rw [TxCosts.totalFee, foldl_add_toNat, hmap]
    · exact Nat.zero_add _
    · rw [hmap]
      change 0 + _ < 2 ^ 64
      omega
  have hsingle : (t.block.minerTx.vout.map fun o => o.amount.toNat).sum = (getOutsMoneyAmount t.block.minerTx).toNat := by
    have hlength := h.outputs
    rw [getOutsMoneyAmount]
    rcases Nat.le_one_iff_eq_zero_or_eq_one.mp hlength with hlength | hlength
    · rw [List.length_eq_zero_iff.mp hlength]
      rfl
    · obtain ⟨o, hvout⟩ := List.length_eq_one_iff.mp hlength
      simp [hvout]
  rw [hsingle, h.paid, UInt64.toNat_add, hfees]
  exact Nat.mod_eq_of_lt hfits

end BlockTemplate

namespace TemplateChain

variable {chain : TemplateChain} {r : TxCosts} {pool : TxMemoryPool} {x : TemplateFunctions} {request : TemplateRequest}
  {t : BlockTemplate}

theorem pays_newTemplate (h : chain.newTemplate x pool request = some t) (hr : r.Of pool)
    (hlimits : chain.rewards.limits.Halved) (hversion : 12 ≤ chain.currentVersion) :
    ∃ coinbaseWeight reward, t.Pays r chain coinbaseWeight reward := by
  obtain ⟨u, -, h⟩ := Option.bind_eq_some_iff.mp h
  obtain ⟨filled, hfilled, h⟩ := Option.bind_eq_some_iff.mp h
  obtain ⟨firstTx, -, h⟩ := Option.bind_eq_some_iff.mp h
  obtain ⟨firstWeight, -, h⟩ := Option.bind_eq_some_iff.mp h
  obtain ⟨⟨minerTx, weight⟩, hloop, h⟩ := Option.bind_eq_some_iff.mp h
  cases h
  obtain ⟨⟨call, unpadded, hunpadded, hvout⟩, coinbaseWeight, hweight, hsum⟩ := minerTxLoop_eq_some hloop
  have hfour : 4 ≤ chain.currentVersion := UInt8.le_trans (by decide) hversion
  have htotals := TxCosts.totals_fillBlockTemplate hr hfilled
  obtain ⟨reward, hreward, hpaid⟩ := getOutsMoneyAmount_constructMinerTx hunpadded hfour
  have hmedian : chain.rewards.limits.currentBlockCumulWeightLimit / 2 =
      chain.rewards.penaltyMedian chain.currentVersion := by
    rw [hlimits.half, RewardChain.penaltyMedian]
    exact (if_pos hversion).symm
  refine ⟨coinbaseWeight, reward, hweight, ?_, ?_, ?_, ?_⟩
  · dsimp only
    rw [hsum, htotals.weight, UInt64.add_comm]
  · rw [← hmedian]
    exact hreward
  · dsimp only
    rw [hvout]
    exact length_vout_constructMinerTx hunpadded hfour (if_pos hfour)
  · dsimp only
    rw [getOutsMoneyAmount, hvout]
    exact hpaid.trans (congrArg (reward + ·) htotals.fee)

end TemplateChain

namespace TemplateNode

structure Good (r : TxCosts) (s : TemplateNode) : Prop where
  costs : r.Of s.pool
  limits : s.chain.rewards.limits.Halved
  cache : ∀ c, s.cache = some c → 12 ≤ s.chain.currentVersion →
    ∃ coinbaseWeight reward, c.template.Pays r s.chain coinbaseWeight reward

variable {r : TxCosts} {s s' : TemplateNode} {x : TemplateFunctions} {request : TemplateRequest} {t : BlockTemplate}

theorem Good.createUncached (h : Good r s) : Good r (s.createUncached x request).2 ∧
    ∀ t, (s.createUncached x request).1 = some t → 12 ≤ s.chain.currentVersion →
      ∃ coinbaseWeight reward, t.Pays r s.chain coinbaseWeight reward := by
  rw [TemplateNode.createUncached]
  cases htemplate : s.chain.newTemplate x s.pool request with
  | none => exact ⟨⟨h.costs, h.limits, fun c hc => by cases hc⟩, fun t ht => by cases ht⟩
  | some t =>
    have hpays := TemplateChain.pays_newTemplate htemplate h.costs h.limits
    refine ⟨⟨h.costs, h.limits, fun c hc => ?_⟩, fun t' ht' => ?_⟩
    · cases hc
      exact hpays
    · cases ht'
      exact hpays

theorem pays_refreshed {chain : TemplateChain} {c : CachedTemplate} {coinbaseWeight reward : UInt64}
    (h : c.template.Pays r chain coinbaseWeight reward) (now : UInt64) :
    (c.refreshed now).Pays r chain coinbaseWeight reward := by
  rw [CachedTemplate.refreshed]
  split_ifs
  · exact ⟨h.coinbase, h.weight, h.baseReward, h.outputs, h.paid⟩
  · exact h

theorem Good.createBlockTemplate (h : Good r s) : Good r (s.createBlockTemplate x request).2 ∧
    ∀ t, (s.createBlockTemplate x request).1 = some t → 12 ≤ s.chain.currentVersion →
      ∃ coinbaseWeight reward, t.Pays r s.chain coinbaseWeight reward := by
  rw [TemplateNode.createBlockTemplate]
  cases hcache : s.cache with
  | none => exact h.createUncached
  | some c =>
    dsimp only
    split_ifs with hsame
    · have hpays : 12 ≤ s.chain.currentVersion →
          ∃ coinbaseWeight reward, (c.refreshed request.now).Pays r s.chain coinbaseWeight reward := by
        intro hversion
        obtain ⟨coinbaseWeight, reward, hpays⟩ := h.cache c hcache hversion
        exact ⟨coinbaseWeight, reward, pays_refreshed hpays request.now⟩
      refine ⟨⟨h.costs, h.limits, fun c' hc' => ?_⟩, fun t ht => ?_⟩
      · cases hc'
        exact hpays
      · cases ht
        exact hpays
    · exact h.createUncached

theorem chain_createUncached : (s.createUncached x request).2.chain = s.chain := by
  rw [TemplateNode.createUncached]
  cases s.chain.newTemplate x s.pool request <;> rfl

theorem chain_createBlockTemplate : (s.createBlockTemplate x request).2.chain = s.chain := by
  rw [TemplateNode.createBlockTemplate]
  cases s.cache with
  | none => exact chain_createUncached
  | some c =>
    dsimp only
    split_ifs
    · rfl
    · exact chain_createUncached

end TemplateNode

namespace TemplateCall

def Regular (r : TxCosts) : TemplateCall → Prop
  | chainChange chain => ∃ window version db w, SmallWeights db ∧
      updateNextCumulativeWeightLimit window version db w = some chain.rewards.limits
  | poolChange pool _ => r.Of pool
  | createBlockTemplate _ _ => True

variable {r : TxCosts} {s : TemplateNode}

theorem good_step (h : s.Good r) {call : TemplateCall} (hcall : call.Regular r) : (step s call).Good r := by
  cases call with
  | chainChange chain =>
    obtain ⟨window, version, db, w, hdb, hlimits⟩ := hcall
    exact ⟨h.costs, halved_updateNextCumulativeWeightLimit hlimits hdb, fun c hc => by cases hc⟩
  | poolChange pool cookie => exact ⟨hcall, h.limits, h.cache⟩
  | createBlockTemplate x request => exact h.createBlockTemplate.1

theorem good_run (h : s.Good r) {calls : List TemplateCall} (hcalls : ∀ call ∈ calls, call.Regular r) :
    (run calls s).Good r := by
  induction calls generalizing s with
  | nil => exact h
  | cons call calls ih =>
    obtain ⟨hcall, hcalls⟩ := List.forall_mem_cons.mp hcalls
    exact ih (good_step h hcall) hcalls

end TemplateCall

open TemplateCall

theorem createBlockTemplate_pays (r : TxCosts) (s : TemplateNode) (hcache : s.cache = none)
    (hpool : (poolChange s.pool s.poolCookie).Regular r) (hchain : (chainChange s.chain).Regular r)
    (calls : List TemplateCall) (hcalls : ∀ call ∈ calls, call.Regular r) (x : TemplateFunctions) (request : TemplateRequest)
    (t : BlockTemplate) (ht : ((run calls s).createBlockTemplate x request).1 = some t)
    (hversion : 12 ≤ (run calls s).chain.currentVersion) :
    ∃ coinbaseWeight reward,
      let rewards := (run calls s).chain.rewards
      let version := (run calls s).chain.currentVersion
      let weight := coinbaseWeight + r.totalWeight t.block.txHashes
      let fees := (t.block.txHashes.map fun id => (r.fee id).toNat).sum
      getTransactionWeight t.block.minerTx = some coinbaseWeight ∧
        getBlockReward rewards.limits.currentBlockCumulWeightMedian weight rewards.alreadyGeneratedCoins version =
          some reward ∧
        getOutsMoneyAmount t.block.minerTx = reward + r.totalFee t.block.txHashes ∧
        (reward.toNat + fees < 2 ^ 64 →
          (t.block.minerTx.vout.map fun o => o.amount.toNat).sum = reward.toNat + fees) ∧
        rewards.validateMinerTransaction t.block.minerTx weight (r.totalFee t.block.txHashes)
          rewards.alreadyGeneratedCoins version = some (reward, false) := by
  obtain ⟨window, version, db, w, hdb, hlimits⟩ := hchain
  have hstart : s.Good r := by
    refine ⟨hpool, halved_updateNextCumulativeWeightLimit hlimits hdb, fun c hc => ?_⟩
    rw [hcache] at hc
    cases hc
  obtain ⟨coinbaseWeight, reward, hpays⟩ := (good_run hstart hcalls).createBlockTemplate.2 t ht hversion
  have hmedian : (run calls s).chain.rewards.penaltyMedian (run calls s).chain.currentVersion =
      (run calls s).chain.rewards.limits.currentBlockCumulWeightMedian := if_pos hversion
  refine ⟨coinbaseWeight, reward, hpays.coinbase, ?_, hpays.paid, hpays.paid_toNat, ?_⟩
  · rw [← hmedian, ← hpays.weight]
    exact hpays.baseReward
  · rw [← hpays.weight]
    exact hpays.validateMinerTransaction hversion

section

def minedChain : TemplateChain where
  rewards := ⟨[⟨17592186044415, 80, 80⟩], ⟨300000, 600000, 300000⟩⟩
  tailId := nullHash
  currentVersion := 16
  idealVersion := 16
  difficultyForNextBlock := 1
  seed := (0, nullHash)
  checkBlockTimestamp _ := none

def minedRow : PoolRow := ⟨⟨nullHash, 1500, 30000000, 0, .fluff, true, false, false⟩, []⟩

def minedPool : TxMemoryPool where
  table := (∅ : ByHash PoolRow).assign nullHash minedRow
  spentKeyImages := ∅
  txpoolWeight := 1500
  txpoolMaxWeight := 648000000
  txsByFeeAndReceiveTime := [⟨20000, 0, nullHash⟩]
  addedTxsById := ∅
  timedOutTransactions := ∅
  parsedTxCache := ∅

def plainKeys : TemplateFunctions where
  miner := ⟨fun _ => Blob.zero 32, some, fun _ _ _ => some (Blob.zero 32, Blob.zero 1)⟩
  fill := ⟨false, fun _ _ => some [], id⟩

def mining : TemplateRequest := ⟨⟨Blob.zero 32, Blob.zero 32⟩, [1, 2, 3], 1000⟩

def minedCosts : TxCosts := ⟨fun _ => 1500, fun _ => 30000000⟩

def minedNode : TemplateNode := ⟨minedChain, minedPool, 0, none⟩

theorem of_minedPool : minedCosts.Of minedPool := by
  intro id row hrow
  have hassign : ((∅ : ByHash PoolRow).assign nullHash minedRow).find? id = some row := hrow
  rw [OrderedMap.find?_assign] at hassign
  split_ifs at hassign
  · cases hassign
    exact ⟨rfl, rfl⟩
  · cases hassign

theorem createBlockTemplate_pays_cached :
    ∃ t, ((run [.createBlockTemplate plainKeys mining] minedNode).createBlockTemplate plainKeys mining).1 = some t ∧
      ∃ coinbaseWeight reward, getTransactionWeight t.block.minerTx = some coinbaseWeight ∧
        getBlockReward 300000 (coinbaseWeight + minedCosts.totalWeight t.block.txHashes) 17592186044415 16 = some reward ∧
        getOutsMoneyAmount t.block.minerTx = reward + minedCosts.totalFee t.block.txHashes := by
  have hsome : ((run [.createBlockTemplate plainKeys mining] minedNode).createBlockTemplate plainKeys mining).1.isSome =
      true := by decide +kernel
  obtain ⟨t, ht⟩ := Option.isSome_iff_exists.mp hsome
  have hchain : (run [.createBlockTemplate plainKeys mining] minedNode).chain = minedChain :=
    TemplateNode.chain_createBlockTemplate
  obtain ⟨coinbaseWeight, reward, hweight, hreward, hpaid, -, -⟩ := createBlockTemplate_pays minedCosts minedNode rfl
    of_minedPool ⟨100000, 16, [⟨17592186044415, 80, 80⟩], .initial, fun b hb => by cases List.mem_singleton.mp hb; decide,
      by decide⟩
    [.createBlockTemplate plainKeys mining] (fun call hcall => by cases List.mem_singleton.mp hcall; trivial)
    plainKeys mining t ht (by rw [hchain]; decide)
  rw [hchain] at hreward
  exact ⟨t, ht, coinbaseWeight, reward, hweight, hreward, hpaid⟩

end

end Velkavo.TxPool
