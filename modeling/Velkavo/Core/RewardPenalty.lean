import Velkavo.Core.CoinSupply
import Velkavo.Epee.IntUtil

namespace Velkavo.Core

open Epee WordArith

def getBlockRewardAsserted (medianWeight currentBlockWeight alreadyGeneratedCoins : UInt64) (version : UInt8) :
    Option (Option UInt64) :=
  let baseReward := emission alreadyGeneratedCoins version
  let medianWeight := softMedian medianWeight version
  if currentBlockWeight ≤ medianWeight then some (some baseReward)
  else if currentBlockWeight > 2 * medianWeight then some none
  else do
    let multiplicand := (2 * medianWeight - currentBlockWeight) * currentBlockWeight
    let product ← mul128 baseReward multiplicand
    let reward ← div128_64 product.2 product.1 medianWeight
    let reward ← div128_64 reward.quotientHi reward.quotientLo medianWeight
    guard (reward.quotientHi = 0)
    guard (reward.quotientLo < baseReward)
    return some reward.quotientLo

section

variable {median weight weight' amount : ℕ}

theorem penaltyFactor_lt (h : median < weight) (hle : weight ≤ 2 * median) :
    (2 * median - weight) * weight < median * median := by
  obtain ⟨excess, rfl⟩ := Nat.exists_eq_add_of_lt h
  obtain ⟨rest, rfl⟩ := Nat.exists_eq_add_of_le (show excess + 1 ≤ median by omega)
  have hsub : 2 * (excess + 1 + rest) - (excess + 1 + rest + excess + 1) = rest := by omega
  rw [hsub]
  nlinarith

theorem penaltyFactor_antitone (h : median ≤ weight) (hle : weight ≤ weight') (hle' : weight' ≤ 2 * median) :
    (2 * median - weight') * weight' ≤ (2 * median - weight) * weight := by
  obtain ⟨more, rfl⟩ := Nat.exists_eq_add_of_le hle
  obtain ⟨rest, hrest⟩ := Nat.exists_eq_add_of_le hle'
  have hsub : 2 * median - (weight + more) = rest := by omega
  have hsub' : 2 * median - weight = more + rest := by omega
  rw [hsub, hsub']
  nlinarith

theorem penalized_lt (h : median < weight) (hle : weight ≤ 2 * median) (hamount : 0 < amount) :
    amount * ((2 * median - weight) * weight) / median / median < amount := by
  rw [Nat.div_div_eq_div_mul, Nat.div_lt_iff_lt_mul (by nlinarith)]
  exact Nat.mul_lt_mul_of_pos_left (penaltyFactor_lt h hle) hamount

end

section

variable {medianWeight weight coins : UInt64} {version : UInt8} {m base : ℕ}

theorem toNat_twice (hm : m = (softMedian medianWeight version).toNat) (hfits : m < 2 ^ 32) :
    (2 * softMedian medianWeight version).toNat = 2 * m := by
  have htwo : (2 : UInt64).toNat = 2 := rfl
  rw [toNat_mul_of_lt (by rw [← hm, htwo]; omega), ← hm, htwo]

theorem toNat_multiplicand (hm : m = (softMedian medianWeight version).toNat) (hfits : m < 2 ^ 32) (h : m < weight.toNat)
    (hle : weight.toNat ≤ 2 * m) : ((2 * softMedian medianWeight version - weight) * weight).toNat =
      (2 * m - weight.toNat) * weight.toNat ∧ (2 * m - weight.toNat) * weight.toNat < 2 ^ 64 := by
  have htwice := toNat_twice hm hfits
  have hsub : (2 * softMedian medianWeight version - weight).toNat = 2 * m - weight.toNat := by
    rw [UInt64.toNat_sub_of_le _ _ (UInt64.le_iff_toNat_le.mpr (htwice ▸ hle)), htwice]
  have hlt : (2 * m - weight.toNat) * weight.toNat < 2 ^ 64 :=
    (penaltyFactor_lt h hle).trans (by nlinarith)
  rw [toNat_mul_of_lt (by rwa [hsub]), hsub]
  exact ⟨rfl, hlt⟩

theorem emission_pos (coins : UInt64) (version : UInt8) : 0 < (emission coins version).toNat := by
  rw [toNat_emission]
  refine lt_of_lt_of_le ?_ (tailEmission_le coins.toNat version)
  rw [tailEmission]
  rcases targetMinutes_cases version with h | h <;> rw [h] <;> norm_num

theorem getBlockRewardAsserted_full (h : weight ≤ softMedian medianWeight version) :
    getBlockRewardAsserted medianWeight weight coins version = some (some (emission coins version)) := by
  rw [getBlockRewardAsserted]
  exact if_pos h

theorem getBlockRewardAsserted_penalty (coins : UInt64) (hm : m = (softMedian medianWeight version).toNat) (hfits : m < 2 ^ 32)
    (h : m < weight.toNat) (hle : weight.toNat ≤ 2 * m) (hbase : base = (emission coins version).toNat) :
    ∃ reward, getBlockRewardAsserted medianWeight weight coins version = some (some reward) ∧
      reward.toNat = base * ((2 * m - weight.toNat) * weight.toNat) / m / m := by
  obtain ⟨hfactor, hfactor'⟩ := toNat_multiplicand hm hfits h hle
  have hbase' : base < 2 ^ 64 := hbase ▸ (emission coins version).toNat_lt
  have hlt := penalized_lt h hle (hbase ▸ emission_pos coins version : 0 < base)
  have hne : softMedian medianWeight version ≠ 0 := by
    intro hzero
    have hpos := softMedian_pos medianWeight version
    rw [hzero] at hpos
    exact absurd hpos (by decide)
  have hproduct : base * ((2 * m - weight.toNat) * weight.toNat) < 2 ^ 64 * 2 ^ 64 := Nat.mul_lt_mul'' hbase' hfactor'
  have hquotient := (Nat.div_le_self (base * ((2 * m - weight.toNat) * weight.toNat)) m).trans_lt hproduct
  rw [getBlockRewardAsserted]
  dsimp only
  rw [if_neg (by rw [UInt64.le_iff_toNat_le, ← hm]; omega),
    if_neg (by rw [gt_iff_lt, UInt64.lt_iff_toNat_lt, toNat_twice hm hfits]; omega), mul128_eq, hfactor, ← hbase]
  rw [Option.bind_eq_bind, Option.bind_some, div128_64_eq _ _ hne, toNat_two_words hproduct, ← hm, Option.bind_eq_bind,
    Option.bind_some, div128_64_eq _ _ hne, toNat_two_words hquotient, ← hm, Option.bind_eq_bind, Option.bind_some]
  generalize base * ((2 * m - weight.toNat) * weight.toNat) / m / m = reward at hlt
  have hreward : (UInt64.ofNat reward).toNat = reward := UInt64.toNat_ofNat_of_lt' (hlt.trans hbase')
  have hhigh : UInt64.ofNat (reward / 2 ^ 64) = 0 := by
    rw [Nat.div_eq_of_lt (hlt.trans hbase')]
    rfl
  have hless : UInt64.ofNat reward < emission coins version := by
    rwa [UInt64.lt_iff_toNat_lt, hreward, ← hbase]
  refine ⟨UInt64.ofNat reward, ?_, hreward⟩
  rw [guard, guard, if_pos hhigh, if_pos hless]
  rfl

theorem getBlockRewardAsserted_eq_none (weight coins : UInt64) (hm : m = (softMedian medianWeight version).toNat) (hfits : m < 2 ^ 32) :
    getBlockRewardAsserted medianWeight weight coins version = some none ↔ 2 * m < weight.toNat := by
  rcases Nat.lt_or_ge m weight.toNat with hlt | hle
  · rcases Nat.lt_or_ge (2 * m) weight.toNat with hmore | hless
    · rw [getBlockRewardAsserted]
      dsimp only
      rw [if_neg (by rw [UInt64.le_iff_toNat_le, ← hm]; omega),
        if_pos (by rw [gt_iff_lt, UInt64.lt_iff_toNat_lt, toNat_twice hm hfits]; omega)]
      exact ⟨fun _ => hmore, fun _ => rfl⟩
    · obtain ⟨reward, hreward, -⟩ := getBlockRewardAsserted_penalty coins hm hfits hlt hless rfl
      rw [hreward]
      refine ⟨fun heq => (by cases heq), fun hmore => ?_⟩
      omega
  · rw [getBlockRewardAsserted_full (UInt64.le_iff_toNat_le.mpr (hm ▸ hle))]
    refine ⟨fun heq => (by cases heq), fun hmore => ?_⟩
    omega

end

theorem get_block_reward_exact (medianWeight coins : UInt64) (version : UInt8) {m base : ℕ}
    (hm : m = (softMedian medianWeight version).toNat) (hbase : base = (emission coins version).toNat) (hfits : m < 2 ^ 32) :
    (∀ weight : UInt64, weight.toNat ≤ m →
      getBlockRewardAsserted medianWeight weight coins version = some (some (emission coins version))) ∧
    (∀ weight : UInt64, getBlockRewardAsserted medianWeight weight coins version = some none ↔ 2 * m < weight.toNat) ∧
    (∀ weight : UInt64, m < weight.toNat → weight.toNat ≤ 2 * m →
      (2 * m - weight.toNat) * weight.toNat < 2 ^ 64 ∧ base * ((2 * m - weight.toNat) * weight.toNat) < 2 ^ 128 ∧
      ∃ reward, getBlockRewardAsserted medianWeight weight coins version = some (some reward) ∧
        reward.toNat = base * ((2 * m - weight.toNat) * weight.toNat) / m / m ∧ reward.toNat < base ∧
        (weight.toNat = 2 * m → reward = 0)) ∧
    ∀ weight weight' reward reward' : UInt64, m < weight.toNat → weight.toNat ≤ weight'.toNat →
      getBlockRewardAsserted medianWeight weight coins version = some (some reward) →
      getBlockRewardAsserted medianWeight weight' coins version = some (some reward') → reward'.toNat ≤ reward.toNat := by
  refine ⟨fun weight hle => ?_, fun weight => getBlockRewardAsserted_eq_none weight coins hm hfits, fun weight hlt hle => ?_,
    fun weight weight' reward reward' hlt hle hreward hreward' => ?_⟩
  · exact getBlockRewardAsserted_full (UInt64.le_iff_toNat_le.mpr (hm ▸ hle))
  · obtain ⟨-, hfactor⟩ := toNat_multiplicand hm hfits hlt hle
    have hbase' : base < 2 ^ 64 := hbase ▸ (emission coins version).toNat_lt
    obtain ⟨reward, hreward, hvalue⟩ := getBlockRewardAsserted_penalty coins hm hfits hlt hle hbase
    have hproduct : base * ((2 * m - weight.toNat) * weight.toNat) < 2 ^ 64 * 2 ^ 64 := Nat.mul_lt_mul'' hbase' hfactor
    refine ⟨hfactor, by omega, reward, hreward, hvalue, ?_, fun htwice => ?_⟩
    · rw [hvalue]
      exact penalized_lt hlt hle (hbase ▸ emission_pos coins version)
    · rw [htwice, Nat.sub_self, Nat.zero_mul, Nat.mul_zero, Nat.zero_div, Nat.zero_div] at hvalue
      exact UInt64.toNat_inj.mp hvalue
  · have hnone := (getBlockRewardAsserted_eq_none weight' coins hm hfits).not.mp
      (by rw [hreward']; simp)
    obtain ⟨first, hfirst, hvalue⟩ := getBlockRewardAsserted_penalty coins hm hfits hlt (by omega) hbase
    obtain ⟨second, hsecond, hvalue'⟩ :=
      getBlockRewardAsserted_penalty coins hm hfits (hlt.trans_le hle) (by omega) hbase
    cases hreward.symm.trans hfirst
    cases hreward'.symm.trans hsecond
    rw [hvalue, hvalue']
    refine Nat.div_le_div_right (Nat.div_le_div_right (Nat.mul_le_mul_left _ ?_))
    exact penaltyFactor_antitone hlt.le hle (by omega)

theorem get_block_reward_exact_half : getBlockRewardAsserted 300000 450000 0 16 = some (some 26388279066623) := by
  have hexact := get_block_reward_exact 300000 0 16 rfl rfl (by decide)
  obtain ⟨-, -, reward, hreward, hvalue, -⟩ := hexact.2.2.1 450000 (by decide) (by decide)
  rw [hreward, Option.some_inj, Option.some_inj, ← UInt64.toNat_inj, hvalue]
  decide +kernel

end Velkavo.Core
