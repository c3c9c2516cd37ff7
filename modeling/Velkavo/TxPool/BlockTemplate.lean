import Velkavo.TxPool.FillTemplate

/-! Block templates: the weight of the block is guessed, and the transaction that pays the reward is padded to it. -/

namespace Velkavo.TxPool

open Cryptonote ByteCodec Velkavo.Core

def rxBlockVersion : UInt8 := 12

structure TemplateChain where
  rewards : RewardChain
  tailId : Hash
  currentVersion : UInt8
  idealVersion : UInt8
  difficultyForNextBlock : ℕ
  seed : UInt64 × Hash
  /-- The median when a timestamp is not above it. -/
  checkBlockTimestamp : UInt64 → Option UInt64

structure TemplateRequest where
  minerAddress : AccountPublicAddress
  exNonce : Bytes
  now : UInt64

structure BlockTemplate where
  block : Block
  difficulty : ℕ
  height : UInt64
  expectedReward : UInt64
  cumulativeWeight : UInt64
  seedHeight : UInt64
  seedHash : Hash

section

variable (construct : ℕ → UInt64 → Option Transaction) (txsWeight : UInt64)

def finishMinerTx (cumulativeWeight : UInt64) (minerTx : Transaction) : Option (Transaction × UInt64) := do
  let weight ← getTransactionWeight minerTx
  guard (cumulativeWeight = txsWeight + weight)
  return (minerTx, cumulativeWeight)

def padExtra (minerTx : Transaction) (delta : UInt64) : Transaction :=
  { minerTx with extra := minerTx.extra ++ List.replicate delta.toNat 0 }

def dropPadding (minerTx : Transaction) : Transaction := { minerTx with extra := minerTx.extra.dropLast }

def minerTxLoop : ℕ → ℕ → UInt64 → Option (Transaction × UInt64)
  | 0, _, _ => none
  | tries + 1, call, cumulativeWeight => do
    let minerTx ← construct call cumulativeWeight
    let coinbaseWeight ← getTransactionWeight minerTx
    if coinbaseWeight > cumulativeWeight - txsWeight then minerTxLoop tries (call + 1) (txsWeight + coinbaseWeight)
    else if coinbaseWeight < cumulativeWeight - txsWeight then
      let delta := cumulativeWeight - txsWeight - coinbaseWeight
      let padded := padExtra minerTx delta
      let paddedWeight ← getTransactionWeight padded
      if cumulativeWeight = txsWeight + paddedWeight then finishMinerTx txsWeight cumulativeWeight padded
      else if cumulativeWeight + 1 = txsWeight + paddedWeight then
        let shorter := dropPadding padded
        let shorterWeight ← getTransactionWeight shorter
        if cumulativeWeight = txsWeight + shorterWeight then finishMinerTx txsWeight cumulativeWeight shorter
        else minerTxLoop tries (call + 1) (cumulativeWeight + (delta - 1))
      else none
    else finishMinerTx txsWeight cumulativeWeight minerTx

end

structure TemplateFunctions where
  miner : MinerFunctions
  fill : FillFunctions

namespace TemplateChain

variable (chain : TemplateChain)

def minerTxArgs (request : TemplateRequest) (fee : UInt64) : MinerTxArgs where
  height := UInt64.ofNat chain.rewards.db.length
  medianWeight := chain.rewards.limits.currentBlockCumulWeightLimit / 2
  alreadyGeneratedCoins := chain.rewards.alreadyGeneratedCoins
  fee := fee
  minerAddress := request.minerAddress
  extraNonce := request.exNonce
  maxOuts := if chain.currentVersion ≥ 4 then 1 else 11
  hardForkVersion := chain.currentVersion

def newTemplate (x : TemplateFunctions) (pool : TxMemoryPool) (request : TemplateRequest) : Option BlockTemplate := do
  guard (chain.difficultyForNextBlock ≠ 0)
  let medianWeight := chain.rewards.limits.currentBlockCumulWeightLimit / 2
  let filled ← pool.fillBlockTemplate x.fill medianWeight chain.rewards.alreadyGeneratedCoins chain.currentVersion
  let construct := constructMinerTx x.miner (chain.minerTxArgs request filled.fee)
  let firstTx ← construct 0 filled.totalWeight
  let firstWeight ← getTransactionWeight firstTx
  let (minerTx, cumulativeWeight) ← minerTxLoop construct filled.totalWeight 10 1 (filled.totalWeight + firstWeight)
  let withSeed := chain.currentVersion ≥ rxBlockVersion
  return {
    block := {
      majorVersion := chain.currentVersion
      minorVersion := chain.idealVersion
      timestamp := (chain.checkBlockTimestamp request.now).getD request.now
      prevId := chain.tailId
      nonce := 0
      minerTx := minerTx
      txHashes := filled.txHashes }
    difficulty := chain.difficultyForNextBlock
    height := UInt64.ofNat chain.rewards.db.length
    expectedReward := filled.bestCoinbase
    cumulativeWeight := cumulativeWeight
    seedHeight := if withSeed then chain.seed.1 else 0
    seedHash := if withSeed then chain.seed.2 else nullHash }

end TemplateChain

structure CachedTemplate where
  template : BlockTemplate
  address : AccountPublicAddress
  nonce : Bytes
  poolCookie : ℕ

def CachedTemplate.refreshed (c : CachedTemplate) (now : UInt64) : BlockTemplate :=
  if c.template.block.timestamp < now then { c.template with block.timestamp := now } else c.template

structure TemplateNode where
  chain : TemplateChain
  pool : TxMemoryPool
  poolCookie : ℕ
  cache : Option CachedTemplate

namespace TemplateNode

def createUncached (s : TemplateNode) (x : TemplateFunctions) (request : TemplateRequest) :
    Option BlockTemplate × TemplateNode :=
  match s.chain.newTemplate x s.pool request with
  | none => (none, { s with cache := none })
  | some t => (some t, { s with cache := some ⟨t, request.minerAddress, request.exNonce, s.poolCookie⟩ })

def createBlockTemplate (s : TemplateNode) (x : TemplateFunctions) (request : TemplateRequest) :
    Option BlockTemplate × TemplateNode :=
  match s.cache with
  | none => s.createUncached x request
  | some c =>
    if c.address = request.minerAddress ∧ c.nonce = request.exNonce ∧ c.poolCookie = s.poolCookie ∧
        c.template.block.prevId = s.chain.tailId then
      let t := c.refreshed request.now
      (some t, { s with cache := some { c with template := t } })
    else s.createUncached x request

end TemplateNode

inductive TemplateCall
  | chainChange (chain : TemplateChain)
  | poolChange (pool : TxMemoryPool) (cookie : ℕ)
  | createBlockTemplate (x : TemplateFunctions) (request : TemplateRequest)

namespace TemplateCall

def step (s : TemplateNode) : TemplateCall → TemplateNode
  | chainChange chain => { s with chain := chain, cache := none }
  | poolChange pool cookie => { s with pool := pool, poolCookie := cookie }
  | createBlockTemplate x request => (s.createBlockTemplate x request).2

def run (calls : List TemplateCall) (s : TemplateNode) : TemplateNode := calls.foldl step s

end TemplateCall

end Velkavo.TxPool
