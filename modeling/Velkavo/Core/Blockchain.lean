import Velkavo.Checkpoints.Dns
import Velkavo.Containers.UnorderedMap
import Velkavo.Cryptonote.BlockHash
import Mathlib.Data.List.AList

namespace Velkavo.Checkpoints

open Cryptonote

def isInCheckpointZone (points : Points) (height : ℕ) : Bool :=
  match points.entries.getLast? with
  | none => false
  | some (last, _) => height ≤ last.toNat

def checkBlock (points : Points) (height : ℕ) (h : Hash) : Bool × Bool :=
  match points.find? (UInt64.ofNat height) with
  | none => (true, false)
  | some expected => (expected = h, true)

def isAlternativeBlockAllowed (points : Points) (blockchainHeight : ℕ) (blockHeight : UInt64) : Bool :=
  if blockHeight = 0 then false
  else
    match (points.entries.takeWhile fun point => point.1.toNat ≤ blockchainHeight).getLast? with
    | none => true
    | some (checkpointHeight, _) => checkpointHeight < blockHeight

end Velkavo.Checkpoints

namespace Velkavo.Core

open Cryptonote Checkpoints

abbrev Difficulty := BitVec 128

structure DbBlock where
  bl : Block
  cumulativeDifficulty : Difficulty

structure BlockExtendedInfo where
  bl : Block
  height : ℕ
  cumulativeDifficulty : Difficulty

structure BlockVerificationContext where
  addedToMainChain : Bool := false
  verificationFailed : Bool := false
  markedAsOrphaned : Bool := false
  alreadyExists : Bool := false
  missingTxs : Bool := false
  badPow : Bool := false

inductive Path
  | main
  | alternative
  deriving DecidableEq

structure PowCheck where
  path : Path
  height : ℕ
  bl : Block
  proofOfWork : Hash

abbrev AltBlocks := AList fun _ : Hash => BlockExtendedInfo

structure Blockchain where
  db : List DbBlock
  altBlocks : AltBlocks
  batch : Option (List DbBlock × AltBlocks)
  batchSuccess : Bool
  blocksLonghashTable : UnorderedMap Hash Hash
  blocksHashCheck : List Hash
  invalidBlocks : List Hash
  prepareHeight : ℕ
  prepareBlocks : List Block
  /-- The history of comparisons, which the program does not keep. -/
  powChecks : List PowCheck

structure Refusal where
  bvc : BlockVerificationContext
  addAsInvalid : Bool

structure Rules where
  points : Points
  checkHash : Hash → Difficulty → Bool
  checkIncomingBlockSize : Block → Bool
  makeFullPoolSupplement : Block → Bool
  requestedSpan : List Block → Bool
  checkMain : Blockchain → Block → Bool
  getDifficultyForNextBlock : Blockchain → Difficulty
  validateMain : Bool → Blockchain → Block → Option Refusal
  addBlock : Blockchain → Block → Bool
  updateNextCumulativeWeightLimit : Blockchain → Bool
  checkForHeight : Block → UInt64 → Bool
  checkBlockTimestamp : Blockchain → List BlockExtendedInfo → Block → Bool
  getNextDifficultyForAlternativeChain : Blockchain → List BlockExtendedInfo → BlockExtendedInfo → Difficulty
  validateAlternative : Blockchain → List BlockExtendedInfo → Block → Option BlockVerificationContext

structure Handled where
  chain : Blockchain
  bvc : BlockVerificationContext
  result : Bool

namespace Blockchain

variable (c : HashFunctions) (r : Rules) (s : Blockchain)

def ids : List Hash := s.db.map fun e => getBlockHash c e.bl

def getTailId : Hash := (s.ids c).getLast?.getD nullHash

def getBlockIdByHeight (height : ℕ) : Hash := (s.ids c)[height]?.getD nullHash

def blockExists (id : Hash) : Bool := id ∈ s.ids c

def haveBlock (id : Hash) : Bool :=
  s.blockExists c id || (s.altBlocks.lookup id).isSome || id ∈ s.invalidBlocks

def getPendingBlockIdByHeight (height : ℕ) : Hash :=
  if s.prepareHeight ≠ 0 ∧ height ≥ s.prepareHeight ∧ height - s.prepareHeight < s.prepareBlocks.length then
    ((s.prepareBlocks.map (getBlockHash c))[height - s.prepareHeight]?).getD nullHash
  else s.getBlockIdByHeight c height

def blockLonghash (b : Block) (height : ℕ) : Hash :=
  getBlockLonghash c (getBlockHashingBlob c b) height b.majorVersion
    (if b.majorVersion ≥ rxBlockVersion then s.getPendingBlockIdByHeight c (rxSeedheight height) else nullHash)

def compare (path : Path) (height : ℕ) (bl : Block) (proofOfWork : Hash) : Blockchain :=
  { s with powChecks := s.powChecks ++ [⟨path, height, bl, proofOfWork⟩] }

def cumulativeDifficulty (height : ℕ) : Difficulty := (s.db[height]?.map DbBlock.cumulativeDifficulty).getD 0

def popBlockFromBlockchain : Option (Blockchain × Block) :=
  if s.db.length > 1 then
    (s.db.getLast?).map fun e => ({ s with db := s.db.dropLast, blocksLonghashTable := ∅ }, e.bl)
  else none

def popWhile (go : Blockchain → Bool) : ℕ → Blockchain → List Block → Blockchain × List Block
  | 0, s, popped => (s, popped)
  | fuel + 1, s, popped =>
    if go s then
      match s.popBlockFromBlockchain with
      | none => (s, popped)
      | some (s, b) => popWhile go fuel s (b :: popped)
    else (s, popped)

def expectedHash (height : ℕ) : Option Hash := s.blocksHashCheck[height]?.filter (· ≠ nullHash)

def proofOfWork (bl : Block) : Hash :=
  match s.blocksLonghashTable.find? (getBlockHash c bl) with
  | some pow => pow
  | none => s.blockLonghash c bl s.db.length

def addBlockToMainChain (fastCheck : Bool) (bl : Block) (currentDiffic : Difficulty)
    (bvc : BlockVerificationContext) : Handled :=
  let id := getBlockHash c bl
  if isInCheckpointZone r.points s.db.length && !(checkBlock r.points s.db.length id).1 then
    ⟨s, { bvc with verificationFailed := true }, false⟩
  else
    match r.validateMain fastCheck s bl with
    | some refusal =>
      ⟨{ s with invalidBlocks := if refusal.addAsInvalid then id :: s.invalidBlocks else s.invalidBlocks },
        refusal.bvc, false⟩
    | none =>
      if !r.addBlock s bl then
        ⟨{ s with batchSuccess := false }, { bvc with verificationFailed := true }, false⟩
      else
        let added : Blockchain :=
          { s with db := s.db ++ [⟨bl, currentDiffic + s.cumulativeDifficulty (s.db.length - 1)⟩] }
        if !r.updateNextCumulativeWeightLimit added then
          ⟨(added.popBlockFromBlockchain.map Prod.fst).getD added, bvc, false⟩
        else ⟨added, { bvc with addedToMainChain := true }, true⟩

def handleBlockToMainChain (bl : Block) (bvc : BlockVerificationContext) : Handled :=
  if bl.prevId ≠ s.getTailId c then ⟨s, { bvc with verificationFailed := true }, false⟩
  else if !r.checkMain s bl then ⟨s, { bvc with verificationFailed := true }, false⟩
  else
    let currentDiffic := r.getDifficultyForNextBlock s
    if currentDiffic = 0 then ⟨s, bvc, false⟩
    else
      match s.expectedHash s.db.length with
      | some expected =>
        if getBlockHash c bl ≠ expected then ⟨s, { bvc with verificationFailed := true }, false⟩
        else s.addBlockToMainChain c r true bl currentDiffic bvc
      | none =>
        let pow := s.proofOfWork c bl
        let s := s.compare .main s.db.length bl pow
        if !r.checkHash pow currentDiffic then
          ⟨s, { bvc with verificationFailed := true, badPow := true }, false⟩
        else s.addBlockToMainChain c r false bl currentDiffic bvc

def altWalk : ℕ → Hash → List BlockExtendedInfo → List BlockExtendedInfo
  | 0, _, chain => chain
  | fuel + 1, id, chain =>
    match s.altBlocks.lookup id with
    | none => chain
    | some bei => altWalk fuel bei.bl.prevId (bei :: chain)

def buildAltChain (prevId : Hash) : Option (List BlockExtendedInfo) :=
  let altChain := s.altWalk ((s.altBlocks.lookup prevId).elim 0 BlockExtendedInfo.height) prevId []
  match altChain with
  | [] => if s.blockExists c prevId then some [] else none
  | front :: _ =>
    if s.db.length ≤ front.height then none
    else if !s.blockExists c front.bl.prevId then none
    else if (s.ids c)[front.height - 1]? ≠ some front.bl.prevId then none
    else some altChain

def getBlockHeightOf (id : Hash) : ℕ := (s.ids c).idxOf id

def parentOf (altChain : List BlockExtendedInfo) (prevId : Hash) : ℕ × Difficulty :=
  match altChain.getLast? with
  | some prev => (prev.height, prev.cumulativeDifficulty)
  | none => (s.getBlockHeightOf c prevId, s.cumulativeDifficulty (s.getBlockHeightOf c prevId))

def altSeedhash (altChain : List BlockExtendedInfo) (seedheight : ℕ) : Hash :=
  match altChain with
  | [] => s.getBlockIdByHeight c seedheight
  | front :: _ =>
    if front.height ≤ seedheight then
      ((altChain.find? fun it => it.height = seedheight + 1).map fun it => it.bl.prevId).getD nullHash
    else s.getBlockIdByHeight c seedheight

def altProofOfWork (altChain : List BlockExtendedInfo) (bei : BlockExtendedInfo) : Hash :=
  if bei.bl.majorVersion ≥ rxBlockVersion then
    getAltblockLonghash c bei.bl (s.altSeedhash c altChain (rxSeedheight bei.height))
  else s.blockLonghash c bei.bl bei.height

def removeAltBlocks (blocks : List BlockExtendedInfo) : Blockchain :=
  { s with
    altBlocks := blocks.foldl (fun m bei => m.erase (getBlockHash c bei.bl)) s.altBlocks }

def connect : Blockchain → List Block → Blockchain × List Block
  | s, [] => (s, [])
  | s, bl :: rest =>
    let o := s.handleBlockToMainChain c r bl {}
    if o.result && o.bvc.addedToMainChain then connect o.chain rest else (o.chain, bl :: rest)

def rollbackBlockchainSwitching (originalChain : List Block) (rollbackHeight : ℕ) : Blockchain :=
  if rollbackHeight > s.db.length then s
  else
    let (s, _) := popWhile (fun s => s.db.length ≠ rollbackHeight) s.db.length s []
    (s.connect c r originalChain).1

def switchToAlternativeBlockchain (handleAlternativeBlock : Blockchain → Block → Handled)
    (altChain : List BlockExtendedInfo) (discardDisconnectedChain : Bool) : Blockchain × Bool :=
  match altChain with
  | [] => (s, false)
  | front :: _ =>
    if !s.blockExists c front.bl.prevId then (s, false)
    else
      let (s, disconnected) := popWhile (fun s => s.getTailId c ≠ front.bl.prevId) s.db.length s []
      if !r.updateNextCumulativeWeightLimit s then (s, false)
      else
        let splitHeight := s.db.length
        let (s, refused) := s.connect c r (altChain.map BlockExtendedInfo.bl)
        if refused ≠ [] then
          let s := s.rollbackBlockchainSwitching c r disconnected splitHeight
          (s.removeAltBlocks c (altChain.drop (altChain.length - refused.length)), false)
        else
          let s := if discardDisconnectedChain then s
            else disconnected.foldl (fun s bl => (handleAlternativeBlock s bl).chain) s
          (s.removeAltBlocks c altChain, true)

def addAlternativeBlock (handleAlternativeBlock : Blockchain → Block → Handled)
    (altChain : List BlockExtendedInfo) (bei : BlockExtendedInfo) : Handled :=
  let id := getBlockHash c bei.bl
  let isACheckpoint := (checkBlock r.points bei.height id).2
  if (s.altBlocks.lookup id).isSome then ⟨s, {}, false⟩
  else
    let added : Blockchain := { s with altBlocks := s.altBlocks.insert id bei }
    if isACheckpoint || s.cumulativeDifficulty (s.db.length - 1) < bei.cumulativeDifficulty then
      let switched := added.switchToAlternativeBlockchain c r handleAlternativeBlock (altChain ++ [bei])
        isACheckpoint
      ⟨switched.1, { addedToMainChain := switched.2, verificationFailed := !switched.2 }, switched.2⟩
    else ⟨added, {}, true⟩

def altDifficulty (altChain : List BlockExtendedInfo) (b : Block) : Difficulty :=
  r.getNextDifficultyForAlternativeChain s altChain ⟨b, (s.parentOf c altChain b.prevId).1 + 1, 0⟩

def altExtendedInfo (altChain : List BlockExtendedInfo) (b : Block) : BlockExtendedInfo :=
  ⟨b, (s.parentOf c altChain b.prevId).1 + 1,
    (s.parentOf c altChain b.prevId).2 + s.altDifficulty c r altChain b⟩

def verifyAlternativeBlock (handleAlternativeBlock : Blockchain → Block → Handled)
    (altChain : List BlockExtendedInfo) (b : Block) : Handled :=
  let bei := s.altExtendedInfo c r altChain b
  if !r.checkBlockTimestamp s altChain b then ⟨s, { verificationFailed := true }, false⟩
  else if !(checkBlock r.points bei.height (getBlockHash c b)).1 then
    ⟨s, { verificationFailed := true }, false⟩
  else if s.altDifficulty c r altChain b = 0 then ⟨s, {}, false⟩
  else
    let pow := s.altProofOfWork c altChain bei
    let compared := s.compare .alternative bei.height b pow
    if !r.checkHash pow (s.altDifficulty c r altChain b) then
      ⟨compared, { verificationFailed := true, badPow := true }, false⟩
    else
      match r.validateAlternative compared altChain b with
      | some refused => ⟨compared, refused, false⟩
      | none => compared.addAlternativeBlock c r handleAlternativeBlock altChain bei

/-- `fuel` bounds the switches that pushing back a disconnected chain can set off in turn. -/
def handleAlternativeBlock : ℕ → Blockchain → Block → Handled
  | 0, s, _ => ⟨s, {}, false⟩
  | fuel + 1, s, b =>
    let blockHeight := getBlockHeight b
    if blockHeight = 0 then ⟨s, { verificationFailed := true }, false⟩
    else if !isAlternativeBlockAllowed r.points s.db.length blockHeight then
      ⟨s, { verificationFailed := true }, false⟩
    else if !r.checkForHeight b blockHeight then ⟨s, { verificationFailed := true }, false⟩
    else if !((s.altBlocks.lookup b.prevId).isSome || s.blockExists c b.prevId) then
      ⟨s, { markedAsOrphaned := true }, true⟩
    else
      match s.buildAltChain c b.prevId with
      | none => ⟨s, {}, false⟩
      | some altChain => s.verifyAlternativeBlock c r (handleAlternativeBlock fuel) altChain b

def addNewBlock (fuel : ℕ) (bl : Block) : Handled :=
  if s.haveBlock c (getBlockHash c bl) then ⟨s, { alreadyExists := true }, false⟩
  else if bl.prevId ≠ s.getTailId c then handleAlternativeBlock c r fuel s bl
  else s.handleBlockToMainChain c r bl {}

def blockLonghashWorker : ℕ → List Block → List (Hash × Hash)
  | _, [] => []
  | height, b :: blocks =>
    (getBlockHash c b, s.blockLonghash c b height) :: blockLonghashWorker (height + 1) blocks

def batchStart : Blockchain := { s with batch := some (s.db, s.altBlocks), batchSuccess := true }

def prepareHandleIncomingBlocks (threads : ℕ) (blocks : List Block) : Blockchain × Bool :=
  match blocks with
  | [] => (s, false)
  | first :: _ =>
    let s := s.batchStart
    if s.db.length + blocks.length < s.blocksHashCheck.length then (s, true)
    else if blocks.length / threads > 0 ∧ first.prevId ≠ s.getTailId c then (s, true)
    else if blocks.any fun b => s.haveBlock c (getBlockHash c b) then (s, true)
    else
      let preparing := { s with prepareHeight := s.db.length, prepareBlocks := blocks }
      let entries := preparing.blockLonghashWorker c s.db.length blocks
      ({ s with blocksLonghashTable := .ofList entries }, true)

def cleanupHandleIncomingBlocks : Blockchain :=
  let s : Blockchain :=
    match s.batch with
    | some (db, altBlocks) => if s.batchSuccess then s else { s with db := db, altBlocks := altBlocks }
    | none => s
  { s with
    batch := none
    blocksLonghashTable := ∅
    blocksHashCheck := if s.db.length > s.blocksHashCheck.length + 4096 then [] else s.blocksHashCheck }

end Blockchain

end Velkavo.Core
