import Velkavo.Core.TxInputs
import Velkavo.HardForks.ActiveVersion

/-! When an output may be spent, as the wallet sees it and as the daemon does. -/

namespace Velkavo.Wallet

open Cryptonote Velkavo.Core

def cryptonoteLockedTxAllowedDeltaBlocks : UInt64 := 1

def cryptonoteLockedTxAllowedDeltaSecondsV1 : UInt64 := 60 * cryptonoteLockedTxAllowedDeltaBlocks

def cryptonoteLockedTxAllowedDeltaSecondsV2 : UInt64 := 120 * cryptonoteLockedTxAllowedDeltaBlocks

def v2height : NetworkType → UInt64
  | .testnet => 624634
  | .stagenet => 32000
  | _ => 1009827

/-- `height` is that of the wallet, and `adjustedTime` what the daemon reports. -/
def isTxSpendtimeUnlocked (nettype : NetworkType) (height adjustedTime unlockTime blockHeight : UInt64) : Bool :=
  if unlockTime < cryptonoteMaxBlockNumber then height - 1 + cryptonoteLockedTxAllowedDeltaBlocks ≥ unlockTime
  else
    let leeway :=
      if blockHeight < v2height nettype then cryptonoteLockedTxAllowedDeltaSecondsV1
      else cryptonoteLockedTxAllowedDeltaSecondsV2
    adjustedTime + leeway ≥ unlockTime

def hfVersionDeterministicUnlockTime : UInt8 := 13

def mainnetVersion (height : ℕ) : UInt8 :=
  { HardFork.mainnetObject with heights := mainnetHardForks }.getIdealVersion height

def daemonUnlocked (s : TxChain) (clock adjustedTime unlockTime : UInt64) : Bool :=
  let hfVersion := mainnetVersion s.height
  let currentTime := if hfVersion ≥ hfVersionDeterministicUnlockTime then adjustedTime else clock
  Core.isTxSpendtimeUnlocked s currentTime hfVersion unlockTime

open HardFork in
theorem schedule_mainnet : Schedule mainnetHardForks 1 := by
  have hadd : mainnetObject.addForks mainnetHardForks = some { mainnetObject with heights := mainnetHardForks } := rfl
  exact .of_isChain (by decide) (addForks_spec hadd List.isChain_nil).2.1 (by decide) rfl

theorem mainnetVersion_ge (height : ℕ) {n : ℕ} (hn : n < mainnetHardForks.length)
    (h : forkHeight mainnetHardForks n ≤ height) :
    forkVersion mainnetHardForks n ≤ mainnetVersion height := by
  have hs : HardFork.Schedule mainnetHardForks 1 := schedule_mainnet
  have hindex : n ≤ HardFork.indexAt mainnetHardForks height := HardFork.le_highestFork (by omega) h
  rw [mainnetVersion, HardFork.getIdealVersion_eq hs]
  rcases Nat.eq_or_lt_of_le hindex with heq | hlt
  · rw [HardFork.versionAt, ← heq]
    exact UInt8.le_refl _
  · exact UInt8.le_of_lt (hs.version_lt hlt (hs.indexAt_lt height))

theorem spendtime_agree_iff (s : TxChain) (clock height adjustedTime unlockTime blockHeight : UInt64)
    (hsync : s.height = height.toNat)
    (hfork : ∃ fork ∈ mainnetHardForks, fork.version = hfVersionDeterministicUnlockTime ∧ fork.height ≤ s.height) :
    isTxSpendtimeUnlocked .mainnet height adjustedTime unlockTime blockHeight =
        daemonUnlocked s clock adjustedTime unlockTime ↔
      unlockTime < 500000000 ∨ 1009827 ≤ blockHeight ∨
        unlockTime ≤ adjustedTime + 60 ∧ unlockTime ≤ adjustedTime + 120 ∨
        adjustedTime + 60 < unlockTime ∧ adjustedTime + 120 < unlockTime := by
  have hversion : hfVersionDeterministicUnlockTime ≤ mainnetVersion s.height := by
    obtain ⟨fork, hmem, hfork, hheight⟩ := hfork
    obtain ⟨n, hn⟩ := List.getElem?_of_mem hmem
    have hge := mainnetVersion_ge s.height (List.getElem?_eq_some_iff.mp hn).1
      (by rw [forkHeight, hn]; exact hheight)
    rw [forkVersion, hn] at hge
    exact hfork ▸ hge
  have hleeway : ¬ mainnetVersion s.height < 2 := by
    rw [UInt8.not_lt]
    exact UInt8.le_trans (by decide) hversion
  rw [isTxSpendtimeUnlocked, daemonUnlocked, Core.isTxSpendtimeUnlocked, if_pos hversion, if_neg hleeway]
  by_cases hindex : unlockTime < cryptonoteMaxBlockNumber
  · have hheight : height - 1 + cryptonoteLockedTxAllowedDeltaBlocks = height := UInt64.sub_add_cancel height 1
    rw [if_pos hindex, if_pos hindex, hheight, hsync]
    exact iff_of_true (decide_eq_decide.mpr UInt64.le_iff_toNat_le) (.inl hindex)
  · have hnum : ¬ unlockTime < 500000000 := hindex
    rw [if_neg hindex, if_neg hindex, or_iff_right hnum]
    by_cases hlow : blockHeight < 1009827
    · have hv2 : blockHeight < v2height .mainnet := hlow
      rw [if_pos hv2, or_iff_right (UInt64.not_le.mpr hlow), decide_eq_decide]
      change (unlockTime ≤ adjustedTime + 60 ↔ unlockTime ≤ adjustedTime + 120) ↔ _
      rw [← UInt64.not_le, ← UInt64.not_le]
      exact iff_iff_and_or_not_and_not
    · have hv2 : ¬ blockHeight < v2height .mainnet := hlow
      rw [if_neg hv2]
      exact iff_of_true rfl (.inl (UInt64.not_lt.mp hlow))

def emptyChain (height : ℕ) : TxChain := ⟨List.replicate height ⟨[], []⟩, ∅⟩

theorem spendtime_agree_iff_sample :
    isTxSpendtimeUnlocked .mainnet 20 1800000000 1800000200 10 =
      daemonUnlocked (emptyChain 20) 1800000000 1800000000 1800000200 :=
  (spendtime_agree_iff (emptyChain 20) 1800000000 20 1800000000 1800000200 10 rfl
    ⟨⟨13, 13, 0, 1341378012⟩, by decide, rfl, by decide⟩).mpr (by decide)

theorem spendtime_disagree :
    isTxSpendtimeUnlocked .mainnet 20 1800000000 1800000100 10 = false ∧
      daemonUnlocked (emptyChain 20) 1800000000 1800000000 1800000100 = true := by
  decide

end Velkavo.Wallet
