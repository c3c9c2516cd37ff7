import Velkavo.Core.Timestamps
import Velkavo.HardForks.ActiveVersion

namespace Velkavo.Core

open Cryptonote

def difficultyTargetV1 : ℕ := 60

def difficultyTargetV2 : ℕ := 120

def difficultyWindow : ℕ := 720

def difficultyLag : ℕ := 15

def difficultyCut : ℕ := 60

def difficultyBlocksCount : ℕ := difficultyWindow + difficultyLag

def cutBegin (length : ℕ) : ℕ :=
  if length ≤ difficultyWindow - 2 * difficultyCut then 0
  else (length - (difficultyWindow - 2 * difficultyCut) + 1) / 2

def cutEnd (length : ℕ) : ℕ :=
  if length ≤ difficultyWindow - 2 * difficultyCut then length
  else cutBegin length + (difficultyWindow - 2 * difficultyCut)

def nextDifficulty (timestamps : List UInt64) (cumulativeDifficulties : List Difficulty) (targetSeconds : ℕ) :
    Difficulty :=
  let timestamps := timestamps.take difficultyWindow
  let cumulativeDifficulties := cumulativeDifficulties.take difficultyWindow
  let length := timestamps.length
  if length ≤ 1 then 1
  else
    let timestamps := sorted timestamps
    let timeSpan := timestamps.getD (cutEnd length - 1) 0 - timestamps.getD (cutBegin length) 0
    let timeSpan := if timeSpan = 0 then 1 else timeSpan
    let totalWork := cumulativeDifficulties.getD (cutEnd length - 1) 0 - cumulativeDifficulties.getD (cutBegin length) 0
    let res := (totalWork.toNat * targetSeconds + timeSpan.toNat - 1) / timeSpan.toNat
    if res > 2 ^ 128 - 1 then 0 else BitVec.ofNat 128 res

def difficultyTarget (version : UInt8) : ℕ := if version < 2 then difficultyTargetV1 else difficultyTargetV2

def nextDifficultyOf (blocks : List DbBlock) (targetSeconds : ℕ) : Difficulty :=
  nextDifficulty (blocks.map timestamp) (blocks.map DbBlock.cumulativeDifficulty) targetSeconds

def windowOffset (height : ℕ) : ℕ :=
  let offset := height - min height difficultyBlocksCount
  if offset = 0 then 1 else offset

def mainWindow (db : List DbBlock) : List DbBlock := db.drop (windowOffset db.length)

def fixedDifficultyFor (fixedDifficulty : Difficulty) (height : ℕ) : Difficulty :=
  if height ≠ 0 then fixedDifficulty else 1

def freshDifficulty (fixedDifficulty : Difficulty) (version : UInt8) (db : List DbBlock) : Difficulty :=
  if fixedDifficulty ≠ 0 then fixedDifficultyFor fixedDifficulty db.length
  else nextDifficultyOf (mainWindow db) (difficultyTarget version)

def mainRange (db : List DbBlock) (start stop : ℕ) : List DbBlock := (db.take stop).drop start

def altWindow (db : List DbBlock) (altChain : List BlockExtendedInfo) (bei : BlockExtendedInfo) : List DbBlock :=
  if altChain.length < difficultyBlocksCount then
    let mainChainStopOffset := (altChain.head?.map BlockExtendedInfo.height).getD bei.height
    let mainChainCount := difficultyBlocksCount - min difficultyBlocksCount altChain.length
    let mainChainCount := min mainChainCount mainChainStopOffset
    let mainChainStartOffset := mainChainStopOffset - mainChainCount
    let mainChainStartOffset := if mainChainStartOffset = 0 then 1 else mainChainStartOffset
    mainRange db mainChainStartOffset mainChainStopOffset ++ altChain.map altEntry
  else (altChain.reverse.take difficultyBlocksCount).reverse.map altEntry

def getNextDifficultyForAlternativeChain (fixedDifficulty : Difficulty) (hf : HardFork) (db : List DbBlock)
    (altChain : List BlockExtendedInfo) (bei : BlockExtendedInfo) : Difficulty :=
  if fixedDifficulty ≠ 0 then fixedDifficultyFor fixedDifficulty db.length
  else nextDifficultyOf (altWindow db altChain bei) (difficultyTarget (hf.getIdealVersion bei.height))

section

variable {db : List DbBlock} {forkHeight : ℕ} {altChain : List BlockExtendedInfo} {bei : BlockExtendedInfo}

theorem altWindow_eq (hfork : forkHeight < db.length)
    (hheights : ∀ i bei, altChain[i]? = some bei → bei.height = forkHeight + 1 + i)
    (hbei : bei.height = forkHeight + 1 + altChain.length) :
    altWindow db altChain bei = mainWindow (asMainChain db forkHeight altChain) := by
  have hstop : (altChain.head?.map BlockExtendedInfo.height).getD bei.height = forkHeight + 1 := by
    cases hhead : altChain.head? with
    | none =>
      rw [List.head?_eq_none_iff] at hhead
      rw [hbei, hhead]
      rfl
    | some front => exact hheights 0 front (List.head?_eq_getElem? ▸ hhead)
  have htake : (db.take (forkHeight + 1)).length = forkHeight + 1 := by
    rw [List.length_take, Nat.min_eq_left hfork]
  rw [altWindow, mainWindow, length_asMainChain hfork, asMainChain]
  split_ifs with hshort
  · have hstart : (if forkHeight + 1 - min (difficultyBlocksCount - min difficultyBlocksCount altChain.length)
        (forkHeight + 1) = 0 then 1 else forkHeight + 1 -
        min (difficultyBlocksCount - min difficultyBlocksCount altChain.length) (forkHeight + 1)) =
        windowOffset (forkHeight + 1 + altChain.length) := by
      rw [windowOffset]
      split_ifs <;> omega
    have hle : windowOffset (forkHeight + 1 + altChain.length) ≤ forkHeight + 1 := by
      rw [windowOffset]
      split_ifs <;> omega
    rw [List.drop_append_of_le_length (htake.symm ▸ hle), ← hstart]
    dsimp only
    rw [hstop]
    rfl
  · have hoffset : windowOffset (forkHeight + 1 + altChain.length) =
        (db.take (forkHeight + 1)).length + (altChain.length - difficultyBlocksCount) := by
      rw [windowOffset, htake]
      split_ifs <;> omega
    rw [hoffset, List.drop_append, List.drop_of_length_le (Nat.le_add_right _ _), List.nil_append,
      Nat.add_sub_cancel_left, List.take_reverse, List.reverse_reverse, List.map_drop]

end

theorem getNextDifficultyForAlternativeChain_eq (fixedDifficulty : Difficulty) (base started hf hf' : HardFork)
    (forks : List HardforkT) (hnew : base.heights = [] ∧ base.db.blocks = [])
    (hforks : base.addForks forks = some started) (hzero : ∀ fork ∈ forks, fork.threshold = 0)
    (hfirst : forks.head?.map HardforkT.version = some base.originalVersion)
    (ops ops' : List ForkOp) (hrun : started.run (.init :: ops) = some hf)
    (hrun' : started.run (.init :: ops') = some hf')
    (db : List DbBlock) (forkHeight : ℕ) (hfork : forkHeight < db.length) (altChain : List BlockExtendedInfo)
    (hheights : ∀ i bei, altChain[i]? = some bei → bei.height = forkHeight + 1 + i)
    (hchain : hf'.db.blocks = (asMainChain db forkHeight altChain).map fun e => e.bl.toBlockHeader)
    (bei : BlockExtendedInfo) (hbei : bei.height = forkHeight + 1 + altChain.length) :
    getNextDifficultyForAlternativeChain fixedDifficulty hf db altChain bei =
      freshDifficulty fixedDifficulty hf'.getCurrentVersion (asMainChain db forkHeight altChain) := by
  obtain ⟨hs, hf₁, hrun₁, ht⟩ := HardFork.tracks_of_run ops hnew hforks hzero hfirst
  obtain ⟨-, hf₂, hrun₂, ht'⟩ := HardFork.tracks_of_run ops' hnew hforks hzero hfirst
  obtain rfl : hf₁ = hf := Option.some_inj.mp (hrun₁.symm.trans hrun)
  obtain rfl : hf₂ = hf' := Option.some_inj.mp (hrun₂.symm.trans hrun')
  have hlength : hf₂.db.height = bei.height := by
    rw [ForkDb.height, hchain, List.length_map, length_asMainChain hfork, hbei]
  have hpos : db.length ≠ 0 := by omega
  have hpos' : (asMainChain db forkHeight altChain).length ≠ 0 := by
    rw [length_asMainChain hfork]
    omega
  rw [getNextDifficultyForAlternativeChain, freshDifficulty, fixedDifficultyFor, fixedDifficultyFor, if_pos hpos,
    if_pos hpos', altWindow_eq hfork hheights hbei, ht.getIdealVersion_eq hs, ht'.getCurrentVersion_eq, hlength]

def versionedBlock (version : UInt8) : Block :=
  ⟨⟨version, version, 0, nullHash, 0⟩, ⟨⟨2, 0, [], [], []⟩, [], default, false⟩, []⟩

def mainnetAfter (ops : List ForkOp) : HardFork :=
  (HardFork.run { HardFork.mainnetObject with heights := mainnetHardForks } (.init :: ops)).getD HardFork.mainnetObject

theorem getNextDifficultyForAlternativeChain_eq_mainnet :
    let db : List DbBlock := [⟨versionedBlock 1, 1⟩, ⟨versionedBlock 1, 2⟩, ⟨versionedBlock 2, 3⟩]
    let altChain : List BlockExtendedInfo := [⟨versionedBlock 2, 2, 3⟩]
    getNextDifficultyForAlternativeChain 0 (mainnetAfter []) db altChain ⟨versionedBlock 3, 3, 0⟩ =
      freshDifficulty 0 (mainnetAfter (([1, 1, 2].map versionedBlock).map fun b => .addBlock b.toBlockHeader)).getCurrentVersion
        (asMainChain db 1 altChain) := by
  intro db altChain
  apply getNextDifficultyForAlternativeChain_eq 0 HardFork.mainnetObject _ _ _ mainnetHardForks ⟨rfl, rfl⟩ rfl (by decide) rfl
    [] (([1, 1, 2].map versionedBlock).map fun b => .addBlock b.toBlockHeader) rfl rfl
  · decide
  · intro i bei hget
    cases i with
    | zero => cases hget; rfl
    | succ i => cases hget
  · rfl
  · rfl

end Velkavo.Core
