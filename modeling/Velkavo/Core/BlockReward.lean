import Velkavo.Core.BlockWeight
import Velkavo.Core.TxSemantic

/-! What a block may pay its miner, and the coins that exist after it. -/

namespace Velkavo.Core

open Cryptonote

def moneySupply : UInt64 := 0xffffffffffffffff

def emissionSpeedFactorPerMinute : ℕ := 20

def finalSubsidyPerMinute : UInt64 := 300000000000

def targetMinutes (version : UInt8) : ℕ := if version < 2 then 60 / 60 else 120 / 60

def emissionSpeedFactor (version : UInt8) : ℕ := emissionSpeedFactorPerMinute - (targetMinutes version - 1)

def finalSubsidy (version : UInt8) : UInt64 := finalSubsidyPerMinute * UInt64.ofNat (targetMinutes version)

def emission (alreadyGeneratedCoins : UInt64) (version : UInt8) : UInt64 :=
  let baseReward := (moneySupply - alreadyGeneratedCoins) >>> UInt64.ofNat (emissionSpeedFactor version)
  if baseReward < finalSubsidy version then finalSubsidy version else baseReward

def softMedian (medianWeight : UInt64) (version : UInt8) : UInt64 :=
  if medianWeight < getMinBlockWeight version then getMinBlockWeight version else medianWeight

/-- The product with the reward and the quotients have 128 bits; what is returned is the low half. -/
def getBlockReward (medianWeight currentBlockWeight alreadyGeneratedCoins : UInt64) (version : UInt8) : Option UInt64 :=
  let baseReward := emission alreadyGeneratedCoins version
  let medianWeight := softMedian medianWeight version
  if currentBlockWeight ≤ medianWeight then some baseReward
  else if currentBlockWeight > 2 * medianWeight then none
  else
    let multiplicand := (2 * medianWeight - currentBlockWeight) * currentBlockWeight
    some (UInt64.ofNat (baseReward.toNat * multiplicand.toNat / medianWeight.toNat / medianWeight.toNat))

def divideOutZeros : ℕ → UInt64 → UInt64
  | 0, amount => amount
  | n + 1, amount => if amount % 10 = 0 then divideOutZeros n (amount / 10) else amount

def isValidDecomposedAmount (amount : UInt64) : Bool := amount ≠ 0 && divideOutZeros 20 amount < 10

def hfVersionMinV2CoinbaseTx : UInt8 := 12

def hfVersionRejectSigsInCoinbase : UInt8 := 12

def hfVersionEffectiveShortTermMedianInPenalty : UInt8 := 12

def hfVersionExactCoinbase : UInt8 := 13

def cryptonoteMinedMoneyUnlockWindow : UInt64 := 60

def checkOutsOverflow (tx : Transaction) : Bool := sumFits 0 (tx.vout.map TxOut.amount)

def prevalidateMinerTransaction (minerTx : Transaction) (height : UInt64) (hfVersion : UInt8) : Bool :=
  minerTx.vin = [.gen height] && (minerTx.version > 1 || hfVersion < hfVersionMinV2CoinbaseTx) &&
    (!(hfVersion ≥ hfVersionRejectSigsInCoinbase && minerTx.version ≥ 2) || minerTx.rctSignatures.type = .null) &&
    minerTx.unlockTime = height + cryptonoteMinedMoneyUnlockWindow && checkOutsOverflow minerTx &&
    checkOutputTypes minerTx hfVersion

structure RewardChain where
  db : List BlockInfo
  limits : WeightLimits
  deriving DecidableEq

def claimedReward (moneyInUse fee baseReward : UInt64) (version : UInt8) : Option (UInt64 × Bool) :=
  if baseReward + fee < moneyInUse then none
  else if version < 2 ∨ version ≥ hfVersionExactCoinbase then
    if baseReward + fee ≠ moneyInUse then none else some (baseReward, false)
  else if moneyInUse - fee ≤ baseReward then some (moneyInUse - fee, decide (baseReward + fee ≠ moneyInUse))
  else none

namespace RewardChain

variable (s : RewardChain)

def penaltyMedian (version : UInt8) : UInt64 :=
  if version ≥ hfVersionEffectiveShortTermMedianInPenalty then s.limits.currentBlockCumulWeightMedian
  else median (getLastNBlocksWeights s.db cryptonoteRewardBlocksWindow)

def validateMinerTransaction (minerTx : Transaction) (cumulativeBlockWeight fee alreadyGeneratedCoins : UInt64)
    (version : UInt8) : Option (UInt64 × Bool) :=
  if version = 3 ∧ !minerTx.vout.all fun o => isValidDecomposedAmount o.amount then none
  else (getBlockReward (s.penaltyMedian version) cumulativeBlockWeight alreadyGeneratedCoins version).bind
    fun baseReward => claimedReward (getOutsMoneyAmount minerTx) fee baseReward version

end RewardChain

structure BlockTx where
  weight : UInt64
  fee : UInt64
  pruned : Bool

/-- The versions are those before and after the block is added, and `passes` is the outcome of the other checks. -/
structure IncomingBlock where
  minerTx : Transaction
  coinbaseWeight : UInt64
  txs : List BlockTx
  hashCheckWeight : UInt64
  hfVersion : UInt8
  newHfVersion : UInt8
  passes : Bool

namespace IncomingBlock

def feeSummary (b : IncomingBlock) : UInt64 := (b.txs.map BlockTx.fee).foldl (· + ·) 0

def cumulativeBlockWeight (b : IncomingBlock) : Option UInt64 :=
  if b.txs.any BlockTx.pruned then if b.hashCheckWeight = 0 then none else some b.hashCheckWeight
  else some ((b.txs.map BlockTx.weight).foldl (· + ·) b.coinbaseWeight)

end IncomingBlock

namespace RewardChain

variable (s : RewardChain) (window : ℕ)

def alreadyGeneratedCoins : UInt64 := (s.db.getLast?.map BlockInfo.coins).getD 0

def addCoins (alreadyGeneratedCoins baseReward : UInt64) : UInt64 :=
  if baseReward < moneySupply - alreadyGeneratedCoins then alreadyGeneratedCoins + baseReward else moneySupply

def store (b : IncomingBlock) (blockWeight baseReward : UInt64) : Option RewardChain := do
  let longTermBlockWeight ← getNextLongTermBlockWeight window b.hfVersion s.db blockWeight
  let db := s.db ++ [⟨addCoins s.alreadyGeneratedCoins baseReward, blockWeight, longTermBlockWeight⟩]
  let limits ← updateNextCumulativeWeightLimit window b.newHfVersion db s.limits
  pure ⟨db, limits⟩

def handleBlockToMainChain (b : IncomingBlock) : Option RewardChain := do
  if !b.passes || !prevalidateMinerTransaction b.minerTx (UInt64.ofNat s.db.length) b.hfVersion then none
  else
    let weight ← b.cumulativeBlockWeight
    let reward ← s.validateMinerTransaction b.minerTx weight b.feeSummary s.alreadyGeneratedCoins b.hfVersion
    s.store window b weight reward.1

def run : List IncomingBlock → RewardChain → Option RewardChain
  | [], s => some s
  | b :: blocks, s => (s.handleBlockToMainChain window b).bind (run blocks)

end RewardChain

end Velkavo.Core
