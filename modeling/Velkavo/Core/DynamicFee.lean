import Velkavo.Core.RewardPenalty
import Velkavo.Cryptonote.RoundMoney
import Velkavo.Epee.RollingMedianRun

namespace Velkavo.Core

open Cryptonote Epee WordArith

def dynamicFeeReferenceTransactionWeight : UInt64 := 3000

def scaling2021FeeRoundingPlaces : ℕ := 2

def blockRewardOverestimate : UInt64 := 10 * 1000000000000

def getFeeQuantizationMask : UInt64 := 10 ^ (12 - 8)

def getDynamicBaseFee (blockReward medianBlockWeight : UInt64) : Option UInt64 := do
  let medianBlockWeight := if medianBlockWeight < fullRewardZoneV5 then fullRewardZoneV5 else medianBlockWeight
  let product ← mul128 blockReward dynamicFeeReferenceTransactionWeight
  let quotient ← div128_64 product.2 product.1 medianBlockWeight
  let quotient ← div128_64 quotient.quotientHi quotient.quotientLo medianBlockWeight
  guard (quotient.quotientHi = 0)
  let lo := quotient.quotientLo - quotient.quotientLo / 20
  return if lo = 0 then 1 else lo

def divided (a b : UInt64) : Option UInt64 := if b = 0 then none else some (a / b)

def dynamicBaseFeeEstimate2021Scaling (baseReward mnw mlw : UInt64) : Option (List UInt64) := do
  let mfw := min mnw mlw
  let fl ← divided (baseReward * dynamicFeeReferenceTransactionWeight) (mfw * mfw)
  let fn ← divided (4 * baseReward * dynamicFeeReferenceTransactionWeight) (mfw * mfw)
  let fm ← divided (16 * baseReward * dynamicFeeReferenceTransactionWeight) (fullRewardZoneV5 * mfw)
  let scaled ← divided (4 * fm * mfw) (32 * dynamicFeeReferenceTransactionWeight * mnw / fullRewardZoneV5)
  let fh := max (4 * fm) scaled
  let f₀ ← roundMoneyUp fl scaling2021FeeRoundingPlaces
  let f₁ ← roundMoneyUp fn scaling2021FeeRoundingPlaces
  let f₂ ← roundMoneyUp fm scaling2021FeeRoundingPlaces
  let f₃ ← roundMoneyUp fh scaling2021FeeRoundingPlaces
  return [f₀, f₁, f₂, f₃]

structure FeeChain extends RewardChain where
  rollingMedian : RollingMedian UInt64

namespace FeeChain

variable (s : FeeChain)

def checkFee (version : UInt8) (txWeight fee : UInt64) : Option Bool :=
  let median := s.limits.currentBlockCumulWeightLimit / 2
  match getBlockReward median 1 s.alreadyGeneratedCoins version with
  | none => some false
  | some baseReward => do
    let feePerByte ← getDynamicBaseFee baseReward (min median s.limits.longTermEffectiveMedianBlockWeight)
    let neededFee := txWeight * feePerByte
    let neededFee := (neededFee + getFeeQuantizationMask - 1) / getFeeQuantizationMask * getFeeQuantizationMask
    return !decide (fee < neededFee - neededFee / 50)

def mlwPenaltyFreeZoneForWallet (graceBlocks : ℕ) : UInt64 :=
  let rm := (List.replicate graceBlocks 0).foldl RollingMedian.insertIn s.rollingMedian
  max (if rm.size = 0 then 0 else rm.median) fullRewardZoneV5

def mswEffectiveShortTermMedian (graceBlocks : ℕ) : UInt64 :=
  let weights := getLastNBlocksWeights s.db (100 - graceBlocks) ++ List.replicate graceBlocks 0
  max (median weights) (s.mlwPenaltyFreeZoneForWallet graceBlocks)

def getDynamicBaseFeeEstimate2021Scaling (version : UInt8) (graceBlocks : ℕ) : Option (List UInt64) :=
  if graceBlocks > cryptonoteRewardBlocksWindow then none
  else
    let mlw := s.mlwPenaltyFreeZoneForWallet graceBlocks
    let mnw := min (s.mswEffectiveShortTermMedian graceBlocks) (50 * mlw)
    let baseReward := (getBlockReward (s.limits.currentBlockCumulWeightLimit / 2) 1 s.alreadyGeneratedCoins
      version).getD blockRewardOverestimate
    dynamicBaseFeeEstimate2021Scaling baseReward mnw mlw

end FeeChain

section

theorem toNat_getMid (a b : UInt64) : (getMid a b).toNat = (a.toNat + b.toNat) / 2 := by
  have ha := a.toNat_lt
  have hb := b.toNat_lt
  have htwo : (2 : UInt64).toNat = 2 := rfl
  simp only [getMid, UInt64.toNat_add, UInt64.toNat_div, UInt64.toNat_sub, UInt64.toNat_mul, htwo]
  omega

theorem toNat_getD_le {v w : List UInt64} (h : List.Forall₂ (· ≤ ·) v w) (i : ℕ) :
    (v.getD i 0).toNat ≤ (w.getD i 0).toNat := by
  induction h generalizing i with
  | nil => exact Nat.le_refl _
  | cons hle _ ih =>
    cases i with
    | zero => exact UInt64.le_iff_toNat_le.mp hle
    | succ i => exact ih i

theorem median_le_of_forall₂ {v w : List UInt64} (h : List.Forall₂ (· ≤ ·) (sorted v) (sorted w)) :
    median v ≤ median w := by
  have hlen : v.length = w.length := by
    have hlen := h.length_eq
    rwa [sorted, sorted, List.length_insertionSort, List.length_insertionSort] at hlen
  have hnil : v = [] ↔ w = [] := by rw [← List.length_eq_zero_iff, hlen, List.length_eq_zero_iff]
  rw [UInt64.le_iff_toNat_le, median, median]
  simp only [hnil, hlen]
  split_ifs
  · exact Nat.le_refl _
  · exact toNat_getD_le h _
  · have hlow := toNat_getD_le h (w.length / 2 - 1)
    have hhigh := toNat_getD_le h (w.length / 2)
    rw [toNat_getMid, toNat_getMid]
    omega

theorem forall₂_orderedInsert {c a : UInt64} {l : List UInt64} (hl : l.Pairwise (· ≤ ·)) (hc : c ≤ a)
    (hcl : ∀ x ∈ l, c ≤ x) : List.Forall₂ (· ≤ ·) (c :: l) (l.orderedInsert (· ≤ ·) a) := by
  induction l generalizing c with
  | nil => exact .cons hc .nil
  | cons b l ih =>
    rw [List.orderedInsert]
    rw [List.pairwise_cons] at hl
    split_ifs with hab
    · exact .cons hc (List.forall₂_same.mpr fun x _ => UInt64.le_refl x)
    · exact .cons (hcl b (by simp)) (ih hl.2 (UInt64.le_of_lt (UInt64.not_le.mp hab)) hl.1)

theorem sorted_zero_cons (v : List UInt64) : sorted (0 :: v) = 0 :: sorted v := by
  rw [sorted, List.insertionSort_cons]
  change List.orderedInsert (· ≤ ·) 0 (sorted v) = 0 :: sorted v
  cases sorted v with
  | nil => rfl
  | cons b l => rw [List.orderedInsert, if_pos UInt64.zero_le]

theorem median_replace_le (a : UInt64) (v : List UInt64) : median (0 :: v) ≤ median (a :: v) := by
  refine median_le_of_forall₂ ?_
  rw [sorted_zero_cons]
  exact forall₂_orderedInsert (List.pairwise_insertionSort _ _) UInt64.zero_le fun _ _ => UInt64.zero_le

theorem sorted_getD_le {v : List UInt64} {i j : ℕ} (hij : i < j) (hj : j < v.length) :
    ((sorted v).getD i 0).toNat ≤ ((sorted v).getD j 0).toNat := by
  have hlen : (sorted v).length = v.length := List.length_insertionSort _ _
  have hsorted : (sorted v).Pairwise (· ≤ ·) := List.pairwise_insertionSort _ _
  have hget := List.pairwise_iff_getElem.mp hsorted i j (by omega) (by omega) hij
  rw [List.getD_eq_getElem _ _ (by omega), List.getD_eq_getElem _ _ (by omega)]
  exact UInt64.le_iff_toNat_le.mp hget

theorem median_zero_cons_le (v : List UInt64) : median (0 :: v) ≤ median v := by
  rcases v.eq_nil_or_concat' with rfl | ⟨_, _, hne⟩
  · decide
  have hpos : v ≠ [] := by simp [hne]
  have hlen := List.length_pos_iff.mpr hpos
  rw [UInt64.le_iff_toNat_le, median, median, if_neg (List.cons_ne_nil 0 v), if_neg hpos, sorted_zero_cons,
    List.length_cons]
  by_cases hodd : v.length % 2 = 1
  · -- the middle of the longer list is the mean of the old middle and of the item below it
    have hhalf : (v.length + 1) / 2 = v.length / 2 + 1 := by omega
    have hbelow : ((0 :: sorted v).getD (v.length / 2) 0).toNat ≤ ((sorted v).getD (v.length / 2) 0).toNat := by
      rcases Nat.eq_zero_or_pos (v.length / 2) with hzero | hmiddle
      · rw [hzero]
        exact Nat.zero_le _
      · obtain ⟨k, hk⟩ := Nat.exists_eq_succ_of_ne_zero hmiddle.ne'
        rw [hk]
        exact sorted_getD_le (Nat.lt_succ_self k) (by omega)
    rw [if_neg (by omega), if_pos hodd, hhalf, toNat_getMid, Nat.add_sub_cancel, List.getD_cons_succ]
    omega
  · obtain ⟨k, hk⟩ := Nat.exists_eq_succ_of_ne_zero (show v.length / 2 ≠ 0 by omega)
    have hhalf : (v.length + 1) / 2 = k + 1 := by omega
    have hmiddle := sorted_getD_le (Nat.lt_succ_self k) (show k + 1 < v.length by omega)
    rw [if_pos (by omega), if_neg hodd, hhalf, hk, toNat_getMid, List.getD_cons_succ, Nat.succ_sub_one]
    omega

theorem median_recent_zeros_le {window : ℕ} (hw : 0 < window) (weights : List UInt64) (graceBlocks : ℕ) :
    median (RollingMedian.recent window (weights ++ List.replicate graceBlocks 0)) ≤
      median (RollingMedian.recent window weights) := by
  induction graceBlocks with
  | zero =>
    rw [List.replicate_zero, List.append_nil]
    exact UInt64.le_refl _
  | succ g ih =>
    refine UInt64.le_trans ?_ ih
    rw [List.replicate_succ', ← List.append_assoc, RollingMedian.recent_append hw]
    generalize RollingMedian.recent window (weights ++ List.replicate g 0) = last
    split_ifs with hroom
    · rw [median_eq_of_perm (List.perm_append_singleton _ _)]
      exact median_zero_cons_le last
    · rw [median_eq_of_perm (List.perm_append_singleton _ _)]
      cases last with
      | nil => simp at hroom; omega
      | cons a last => exact median_replace_le a last

end

section

def fullZone : ℕ := 300000

theorem toNat_fullRewardZoneV5 : fullRewardZoneV5.toNat = fullZone := rfl

theorem toNat_max (a b : UInt64) : (max a b).toNat = max a.toNat b.toNat := by
  change (if a ≤ b then b else a).toNat = _
  simp only [UInt64.le_iff_toNat_le]
  split_ifs with h
  · rw [max_eq_right h]
  · rw [max_eq_left (by omega)]

theorem toNat_min (a b : UInt64) : (min a b).toNat = min a.toNat b.toNat := by
  change (if a ≤ b then a else b).toNat = _
  simp only [UInt64.le_iff_toNat_le]
  split_ifs with h
  · rw [min_eq_left h]
  · rw [min_eq_right (by omega)]

theorem emission_bounds (coins : UInt64) {version : UInt8} (hv : hfVersion2021Scaling ≤ version) :
    0 < (emission coins version).toNat ∧ (emission coins version).toNat < 2 ^ 45 := by
  refine ⟨emission_pos coins version, ?_⟩
  have hminutes : targetMinutes version = 2 := by
    rw [targetMinutes, if_neg]
    rw [UInt8.le_iff_toNat_le] at hv
    have : hfVersion2021Scaling.toNat = 15 := rfl
    rw [UInt8.lt_iff_toNat_lt]
    have : (2 : UInt8).toNat = 2 := rfl
    omega
  rw [toNat_emission, emissionFormula, tailEmission, emissionSpeedFactor, hminutes]
  have hsupply : coinCap - coins.toNat < 2 ^ 64 := by
    rw [coinCap]
    omega
  have hspeed : emissionSpeedFactorPerMinute - (2 - 1) = 19 := rfl
  rw [hspeed]
  omega

theorem getBlockReward_one (medianWeight coins : UInt64) (version : UInt8) :
    getBlockReward medianWeight 1 coins version = some (emission coins version) := by
  rw [getBlockReward]
  refine if_pos (UInt64.le_iff_toNat_le.mpr ?_)
  exact softMedian_pos medianWeight version

theorem getDynamicBaseFee_le {reward : UInt64} (weight : UInt64) (hreward : reward.toNat < 2 ^ 45)
    (hweight : fullZone ≤ weight.toNat) :
    ∃ fee, getDynamicBaseFee reward weight = some fee ∧
      fee.toNat ≤ max 1 (reward.toNat * 3000 / (weight.toNat * weight.toNat)) := by
  have hzone : ¬ weight < fullRewardZoneV5 := by
    rw [UInt64.lt_iff_toNat_lt, toNat_fullRewardZoneV5]
    omega
  have hne : weight ≠ 0 := by
    rintro rfl
    exact absurd hweight (by decide)
  have href : dynamicFeeReferenceTransactionWeight.toNat = 3000 := rfl
  have hproduct : reward.toNat * 3000 < 2 ^ 64 := by omega
  have hquotient := (Nat.div_le_self (reward.toNat * 3000) weight.toNat).trans_lt hproduct
  have hfee := (Nat.div_le_self (reward.toNat * 3000 / weight.toNat) weight.toNat).trans_lt hquotient
  rw [getDynamicBaseFee, if_neg hzone, mul128_eq, href]
  dsimp only
  rw [Option.bind_eq_bind, Option.bind_some, div128_64_eq _ _ hne, toNat_two_words (by omega), Option.bind_eq_bind,
    Option.bind_some, div128_64_eq _ _ hne, toNat_two_words (by omega), Option.bind_eq_bind, Option.bind_some]
  rw [← Nat.div_div_eq_div_mul]
  generalize reward.toNat * 3000 / weight.toNat / weight.toNat = fee at hfee
  have hhigh : UInt64.ofNat (fee / 2 ^ 64) = 0 := by
    rw [Nat.div_eq_of_lt hfee]
    rfl
  have hlow : (UInt64.ofNat fee).toNat = fee := UInt64.toNat_ofNat_of_lt' hfee
  generalize UInt64.ofNat fee = lo at hlow
  have hdiscount : (lo - lo / 20).toNat ≤ fee := by
    have htwenty : (lo / 20).toNat = lo.toNat / 20 := UInt64.toNat_div _ _
    rw [UInt64.toNat_sub_of_le _ _ (UInt64.le_iff_toNat_le.mpr (by omega)), hlow]
    omega
  refine ⟨if lo - lo / 20 = 0 then 1 else lo - lo / 20, ?_, ?_⟩
  · rw [guard, if_pos hhigh]
    rfl
  · split_ifs
    · exact le_max_left _ _
    · exact hdiscount.trans (le_max_right _ _)

structure Estimate (reward zone : ℕ) (fl fn fm fh : UInt64) : Prop where
  low : fl.toNat = reward * 3000 / (zone * zone)
  low_le : fl.toNat ≤ fn.toNat
  normal_le : fn.toNat ≤ fm.toNat
  medium_le : fm.toNat ≤ fh.toNat
  high_lt : fh.toNat < 2 ^ 60

theorem divided_eq {a b : UInt64} {m n : ℕ} (ha : a.toNat = m) (hb : b.toNat = n) (hn : 0 < n) :
    ∃ q, divided a b = some q ∧ q.toNat = m / n := by
  refine ⟨a / b, if_neg ?_, by rw [UInt64.toNat_div, ha, hb]⟩
  rintro rfl
  rw [← hb] at hn
  exact absurd hn (by decide)

theorem exists_estimate {reward mnw mlw : UInt64} {zone wide : ℕ} (hreward : reward.toNat < 2 ^ 45)
    (hmlw : mlw.toNat = zone) (hmnw : mnw.toNat = wide) (hzone : fullZone ≤ zone) (hlt : zone < 2 ^ 32)
    (hle : zone ≤ wide) (hwide : wide ≤ 50 * zone) :
    ∃ fl fn fm fh, Estimate reward.toNat zone fl fn fm fh ∧
      dynamicBaseFeeEstimate2021Scaling reward mnw mlw = (do
        let f₀ ← roundMoneyUp fl 2
        let f₁ ← roundMoneyUp fn 2
        let f₂ ← roundMoneyUp fm 2
        let f₃ ← roundMoneyUp fh 2
        return [f₀, f₁, f₂, f₃]) := by
  rw [fullZone] at hzone
  have hmfw : min mnw mlw = mlw := by
    rw [← UInt64.toNat_inj, toNat_min, hmlw, hmnw, min_eq_right hle]
  have href : dynamicFeeReferenceTransactionWeight.toNat = 3000 := rfl
  have hsquare : zone * zone < 2 ^ 64 := (Nat.mul_lt_mul'' hlt hlt).trans_le (by decide)
  have hpos : 0 < zone * zone := Nat.mul_pos (by omega) (by omega)
  have hX : (reward * dynamicFeeReferenceTransactionWeight).toNat = reward.toNat * 3000 :=
    toNat_mul_of_lt (by rw [href]; omega)
  have h4 : (4 * reward).toNat = 4 * reward.toNat := toNat_mul_of_lt (by change 4 * _ < _; omega)
  have h4X : (4 * reward * dynamicFeeReferenceTransactionWeight).toNat = 4 * reward.toNat * 3000 := by
    rw [toNat_mul_of_lt (by rw [h4, href]; omega), h4, href]
  have h16 : (16 * reward).toNat = 16 * reward.toNat := toNat_mul_of_lt (by change 16 * _ < _; omega)
  have h16X : (16 * reward * dynamicFeeReferenceTransactionWeight).toNat = 16 * reward.toNat * 3000 := by
    rw [toNat_mul_of_lt (by rw [h16, href]; omega), h16, href]
  have hZZ : (mlw * mlw).toNat = zone * zone := by rw [toNat_mul_of_lt (by rw [hmlw]; exact hsquare), hmlw]
  have hwZ : (fullRewardZoneV5 * mlw).toNat = 300000 * zone := by
    rw [toNat_mul_of_lt (by rw [hmlw, toNat_fullRewardZoneV5, fullZone]; omega), hmlw]
    rfl
  have hW : (32 * dynamicFeeReferenceTransactionWeight * mnw / fullRewardZoneV5).toNat = 96000 * wide / 300000 := by
    have h96 : (32 * dynamicFeeReferenceTransactionWeight).toNat = 96000 := rfl
    rw [UInt64.toNat_div, toNat_mul_of_lt (by rw [h96, hmnw]; omega), h96, hmnw]
    rfl
  obtain ⟨fl, hfl, hfl'⟩ := divided_eq hX hZZ hpos
  obtain ⟨fn, hfn, hfn'⟩ := divided_eq h4X hZZ hpos
  obtain ⟨fm, hfm, hfm'⟩ := divided_eq h16X hwZ (by omega)
  have hshare : 300000 * (fm.toNat * zone) ≤ 16 * reward.toNat * 3000 := by
    calc 300000 * (fm.toNat * zone) = fm.toNat * (300000 * zone) := by ring
      _ ≤ 16 * reward.toNat * 3000 := hfm' ▸ Nat.div_mul_le_self _ _
  have hfmLe : fm.toNat ≤ fm.toNat * zone := Nat.le_mul_of_pos_right _ (by omega)
  have h4fm : (4 * fm).toNat = 4 * fm.toNat := toNat_mul_of_lt (by change 4 * _ < _; omega)
  have hshare' : (4 * fm * mlw).toNat = 4 * (fm.toNat * zone) := by
    rw [toNat_mul_of_lt (by rw [h4fm, hmlw, Nat.mul_assoc]; omega), h4fm, hmlw, Nat.mul_assoc]
  obtain ⟨scaled, hscaled, hscaled'⟩ := divided_eq hshare' hW (by omega)
  have hscaledLe : scaled.toNat ≤ 4 * (fm.toNat * zone) := hscaled' ▸ Nat.div_le_self _ _
  refine ⟨fl, fn, fm, max (4 * fm) scaled, ⟨hfl', ?_, ?_, ?_, ?_⟩, ?_⟩
  · rw [hfl', hfn']
    exact Nat.div_le_div_right (by omega)
  · -- the zone is wider than a quarter of the least one
    rw [hfn', hfm', Nat.le_div_iff_mul_le (show 0 < 300000 * zone by omega)]
    have hwider : 300000 * zone ≤ zone * zone := Nat.mul_le_mul hzone (Nat.le_refl zone)
    calc 4 * reward.toNat * 3000 / (zone * zone) * (300000 * zone)
        ≤ 4 * reward.toNat * 3000 / (zone * zone) * (zone * zone) :=
          Nat.mul_le_mul_left _ hwider
      _ ≤ 4 * reward.toNat * 3000 := Nat.div_mul_le_self _ _
      _ ≤ 16 * reward.toNat * 3000 := Nat.mul_le_mul_right 3000 (Nat.mul_le_mul_right _ (by decide))
  · rw [toNat_max, h4fm]
    omega
  · rw [toNat_max, h4fm]
    omega
  · rw [dynamicBaseFeeEstimate2021Scaling, hmfw]
    simp only [hfl, hfn, hfm, hscaled, Option.bind_eq_bind, Option.bind_some, scaling2021FeeRoundingPlaces]

end

section

def longTermZone (window graceBlocks : ℕ) (db : List BlockInfo) : ℕ :=
  max fullZone
    (median (RollingMedian.recent window
      (db.map BlockInfo.longTermBlockWeight ++ List.replicate graceBlocks 0))).toNat

namespace FeeChain

structure Current (window : ℕ) (version : UInt8) (s : FeeChain) : Prop where
  limits : ∃ before, updateNextCumulativeWeightLimit window version s.db before = some s.limits
  valid : s.rollingMedian.Valid
  capacity : s.rollingMedian.n = window
  queue : s.rollingMedian.queue = RollingMedian.recent window (s.db.map BlockInfo.longTermBlockWeight)

variable {window graceBlocks : ℕ} {version : UInt8} {s : FeeChain}

theorem Current.window_pos (h : s.Current window version) : 0 < window := h.capacity ▸ h.valid.shape.n_pos

theorem Current.toNat_mlw (h : s.Current window version) (graceBlocks : ℕ) :
    (s.mlwPenaltyFreeZoneForWallet graceBlocks).toNat = longTermZone window graceBlocks s.db := by
  obtain ⟨hvalid, -, hqueue⟩ := RollingMedian.foldl_insert_recent h.valid h.capacity h.queue
    (List.replicate graceBlocks 0)
  rw [mlwPenaltyFreeZoneForWallet, longTermZone, ← hqueue]
  generalize (List.replicate graceBlocks 0).foldl RollingMedian.insertIn s.rollingMedian = rm at hvalid
  rw [toNat_max, toNat_fullRewardZoneV5, max_comm, RollingMedian.size]
  split_ifs with hempty
  · have hnil : rm.queue = [] := by rw [← List.length_eq_zero_iff, RollingMedian.length_queue, hempty]
    rw [hnil]
    rfl
  · rw [RollingMedian.median_eq hvalid (Nat.pos_of_ne_zero hempty)]

theorem longTermZone_le (hw : 0 < window) (graceBlocks : ℕ) (db : List BlockInfo) :
    longTermZone window graceBlocks db ≤ longTermZone window 0 db := by
  have hle := median_recent_zeros_le hw (db.map BlockInfo.longTermBlockWeight) graceBlocks
  rw [longTermZone, longTermZone, List.replicate_zero, List.append_nil]
  exact max_le_max (Nat.le_refl _) (UInt64.le_iff_toNat_le.mp hle)

theorem Current.limits_eq (h : s.Current window version) (hv : hfVersion2021Scaling ≤ version)
    (hfits : longTermZone window 0 s.db < 2 ^ 32) :
    s.limits.longTermEffectiveMedianBlockWeight.toNat = longTermZone window 0 s.db ∧
      longTermZone window 0 s.db ≤ (s.limits.currentBlockCumulWeightLimit / 2).toNat := by
  obtain ⟨before, hupdate⟩ := h.limits
  have hlong : ¬ version < hfVersionLongTermBlockWeight := by
    rw [UInt8.le_iff_toNat_le] at hv
    rw [UInt8.lt_iff_toNat_lt]
    have h15 : hfVersion2021Scaling.toNat = 15 := rfl
    have h10 : hfVersionLongTermBlockWeight.toNat = 10 := rfl
    omega
  rw [updateNextCumulativeWeightLimit, if_neg hlong, longTermEffectiveMedian, getLongTermBlockWeightMedian] at hupdate
  split_ifs at hupdate with hcount
  · cases hupdate
  have hrecent : (s.db.drop (s.db.length - min window s.db.length)).map BlockInfo.longTermBlockWeight =
      RollingMedian.recent window (s.db.map BlockInfo.longTermBlockWeight) := by
    rw [RollingMedian.recent, List.length_map, List.map_drop]
    congr 1
    omega
  have hzone : longTermZone window 0 s.db =
      (max fullRewardZoneV5 (median (RollingMedian.recent window (s.db.map BlockInfo.longTermBlockWeight)))).toNat := by
    rw [longTermZone, List.replicate_zero, List.append_nil, toNat_max]
    rfl
  rw [Option.map_some, Option.map_some, Option.some.injEq, hrecent] at hupdate
  generalize max fullRewardZoneV5 (median (RollingMedian.recent window (s.db.map BlockInfo.longTermBlockWeight))) =
    longTerm at hzone hupdate
  rw [hzone] at hfits
  rw [← hupdate, hzone]
  refine ⟨rfl, ?_⟩
  have hmin : getMinBlockWeight version = fullRewardZoneV5 := by
    rw [UInt8.le_iff_toNat_le] at hv
    have h15 : hfVersion2021Scaling.toNat = 15 := rfl
    have h5 : (5 : UInt8).toNat = 5 := rfl
    have h2 : (2 : UInt8).toNat = 2 := rfl
    rw [getMinBlockWeight, if_neg (by rw [UInt8.lt_iff_toNat_lt]; omega), if_neg (by rw [UInt8.lt_iff_toNat_lt]; omega)]
  have hsurge : (shortTermBlockWeightSurgeFactor * longTerm).toNat = 50 * longTerm.toNat :=
    toNat_mul_of_lt (by change 50 * _ < _; omega)
  rw [WeightLimits.withMedian, effectiveMedian, if_pos hv, hmin]
  have hmedian := toNat_min (max longTerm (median (getLastNBlocksWeights s.db cryptonoteRewardBlocksWindow)))
    (shortTermBlockWeightSurgeFactor * longTerm)
  rw [toNat_max, hsurge] at hmedian
  generalize min (max longTerm (median (getLastNBlocksWeights s.db cryptonoteRewardBlocksWindow)))
    (shortTermBlockWeightSurgeFactor * longTerm) = m at hmedian
  have hhalf : ∀ x : UInt64, x.toNat < 2 ^ 63 → (x * 2 / 2).toNat = x.toNat := by
    intro x hx
    have htwo : (2 : UInt64).toNat = 2 := rfl
    rw [UInt64.toNat_div, toNat_mul_of_lt (by rw [htwo]; omega), htwo]
    omega
  change longTerm.toNat ≤ ((if m ≤ fullRewardZoneV5 then fullRewardZoneV5 else m) * 2 / 2).toNat
  split_ifs with hsmall
  · rw [UInt64.le_iff_toNat_le] at hsmall
    rw [hhalf _ (by decide)]
    omega
  · rw [hhalf _ (by omega)]
    omega

def FeesHold (s : FeeChain) (version : UInt8) (graceBlocks : ℕ) : Prop :=
  ∃ fees, s.getDynamicBaseFeeEstimate2021Scaling version graceBlocks = some fees ∧ fees.length = 4 ∧
    (∀ f ∈ fees, 0 < f) ∧ fees.Pairwise (· ≤ ·) ∧
    ∀ txWeight fee : UInt64,
      fee.toNat = roundUp (txWeight.toNat * (fees.getD 0 0).toNat) getFeeQuantizationMask.toNat →
        s.checkFee version txWeight fee = some true

theorem Current.checkFee (h : s.Current window version) (hv : hfVersion2021Scaling ≤ version)
    (hfits : longTermZone window 0 s.db < 2 ^ 32) {perByte txWeight fee : UInt64} (hpos : 0 < perByte.toNat)
    (hperByte : (emission s.alreadyGeneratedCoins version).toNat * 3000 /
      (longTermZone window 0 s.db * longTermZone window 0 s.db) ≤ perByte.toNat)
    (hfee : fee.toNat = roundUp (txWeight.toNat * perByte.toNat) getFeeQuantizationMask.toNat) :
    s.checkFee version txWeight fee = some true := by
  obtain ⟨hlong, hlimit⟩ := h.limits_eq hv hfits
  have hmin : min (s.limits.currentBlockCumulWeightLimit / 2) s.limits.longTermEffectiveMedianBlockWeight =
      s.limits.longTermEffectiveMedianBlockWeight := by
    rw [← UInt64.toNat_inj, toNat_min, hlong, min_eq_right hlimit]
  obtain ⟨base, hbase, hle⟩ := getDynamicBaseFee_le s.limits.longTermEffectiveMedianBlockWeight
    (emission_bounds s.alreadyGeneratedCoins hv).2 (hlong ▸ le_max_left _ _)
  rw [FeeChain.checkFee, getBlockReward_one]
  simp only [hmin, hbase, Option.bind_eq_bind, Option.bind_some, Option.pure_def, Option.some.injEq, Bool.not_eq_true',
    decide_eq_false_iff_not]
  rw [hlong] at hle
  have hbaseLe : base.toNat ≤ perByte.toNat := by omega
  have hwrap : ∀ a b : UInt64, (a * b).toNat ≤ a.toNat * b.toNat := fun a b => by
    rw [UInt64.toNat_mul]
    exact Nat.mod_le _ _
  have hmask : getFeeQuantizationMask.toNat = 10000 := rfl
  have hsum : (txWeight * base + getFeeQuantizationMask - 1).toNat ≤ txWeight.toNat * perByte.toNat + (10000 - 1) := by
    have hproduct := (hwrap txWeight base).trans (Nat.mul_le_mul_left _ hbaseLe)
    have hlt := (txWeight * base).toNat_lt
    have hone : (1 : UInt64).toNat = 1 := rfl
    rw [UInt64.toNat_sub, UInt64.toNat_add, hmask, hone]
    omega
  have hneeded : ((txWeight * base + getFeeQuantizationMask - 1) / getFeeQuantizationMask *
      getFeeQuantizationMask).toNat ≤ fee.toNat := by
    refine (hwrap _ _).trans ?_
    rw [UInt64.toNat_div, hfee, roundUp, hmask]
    exact Nat.mul_le_mul_right _ (Nat.div_le_div_right hsum)
  generalize (txWeight * base + getFeeQuantizationMask - 1) / getFeeQuantizationMask * getFeeQuantizationMask =
    needed at hneeded
  have hfifty : (needed / 50).toNat = needed.toNat / 50 := UInt64.toNat_div _ _
  rw [UInt64.lt_iff_toNat_lt, UInt64.toNat_sub_of_le _ _ (UInt64.le_iff_toNat_le.mpr (by omega))]
  omega

theorem Current.exists_estimate (h : s.Current window version) (hv : hfVersion2021Scaling ≤ version)
    (hgrace : graceBlocks ≤ 100) (hfits : longTermZone window 0 s.db < 2 ^ 32) :
    ∃ fl fn fm fh f₀ f₁ f₂ f₃,
      Estimate (emission s.alreadyGeneratedCoins version).toNat (longTermZone window graceBlocks s.db) fl fn fm fh ∧
      roundMoneyUp fl 2 = some f₀ ∧ roundMoneyUp fn 2 = some f₁ ∧ roundMoneyUp fm 2 = some f₂ ∧
      roundMoneyUp fh 2 = some f₃ ∧
      s.getDynamicBaseFeeEstimate2021Scaling version graceBlocks = some [f₀, f₁, f₂, f₃] := by
  have hzone := h.toNat_mlw graceBlocks
  have hle := longTermZone_le h.window_pos graceBlocks s.db
  have hfull : fullZone ≤ longTermZone window graceBlocks s.db := le_max_left _ _
  have hsurge : (50 * s.mlwPenaltyFreeZoneForWallet graceBlocks).toNat = 50 * longTermZone window graceBlocks s.db := by
    have hfifty : (50 : UInt64).toNat = 50 := rfl
    rw [toNat_mul_of_lt (by rw [hfifty, hzone]; omega), hfifty, hzone]
  have hmnw := toNat_min (s.mswEffectiveShortTermMedian graceBlocks) (50 * s.mlwPenaltyFreeZoneForWallet graceBlocks)
  have hmsw : (s.mswEffectiveShortTermMedian graceBlocks).toNat = max
      (median (getLastNBlocksWeights s.db (100 - graceBlocks) ++ List.replicate graceBlocks 0)).toNat
      (longTermZone window graceBlocks s.db) := by
    rw [mswEffectiveShortTermMedian, toNat_max, hzone]
  rw [hsurge, hmsw] at hmnw
  obtain ⟨fl, fn, fm, fh, hestimate, hfees⟩ := Core.exists_estimate
    (emission_bounds s.alreadyGeneratedCoins hv).2 hzone hmnw hfull (by omega) (by omega) (by omega)
  have hfh := hestimate.high_lt
  have hfm := hestimate.medium_le
  have hfn := hestimate.normal_le
  have hfl := hestimate.low_le
  obtain ⟨f₀, h₀⟩ := exists_roundMoneyUp fl (k := 2) (by decide) (by omega)
  obtain ⟨f₁, h₁⟩ := exists_roundMoneyUp fn (k := 2) (by decide) (by omega)
  obtain ⟨f₂, h₂⟩ := exists_roundMoneyUp fm (k := 2) (by decide) (by omega)
  obtain ⟨f₃, h₃⟩ := exists_roundMoneyUp fh (k := 2) (by decide) (by omega)
  refine ⟨fl, fn, fm, fh, f₀, f₁, f₂, f₃, hestimate, h₀, h₁, h₂, h₃, ?_⟩
  have hwindow : ¬ graceBlocks > cryptonoteRewardBlocksWindow := Nat.not_lt.mpr hgrace
  rw [getDynamicBaseFeeEstimate2021Scaling, if_neg hwindow, getBlockReward_one, Option.getD_some]
  rw [h₀, h₁, h₂, h₃] at hfees
  exact hfees

theorem Current.not_feesHold (h : s.Current window version) (hv : hfVersion2021Scaling ≤ version)
    (hgrace : graceBlocks ≤ 100) (hfits : longTermZone window 0 s.db < 2 ^ 32)
    (hlow : 3000 * (emission s.alreadyGeneratedCoins version).toNat < longTermZone window graceBlocks s.db ^ 2) :
    ¬ s.FeesHold version graceBlocks := by
  obtain ⟨fl, fn, fm, fh, f₀, f₁, f₂, f₃, hestimate, h₀, -, -, -, hfees⟩ := h.exists_estimate hv hgrace hfits
  rintro ⟨fees, hsome, -, hpos, -⟩
  rw [hfees, Option.some.injEq] at hsome
  have hpos₀ : 0 < f₀.toNat := UInt64.lt_iff_toNat_lt.mp (hpos f₀ (by simp [← hsome]))
  have hzero : fl.toNat = 0 := by
    rw [hestimate.low, Nat.div_eq_of_lt]
    rw [← sq]
    omega
  have hleast : f₀.toNat ≤ 0 := (isLeast_roundMoneyUp (by decide) h₀).2 ⟨hzero.le, 0, by decide, 0, rfl⟩
  omega

theorem Current.feesHold (h : s.Current window version) (hv : hfVersion2021Scaling ≤ version)
    (hgrace : graceBlocks ≤ 100) (hfits : longTermZone window 0 s.db < 2 ^ 32)
    (hhigh : longTermZone window graceBlocks s.db ^ 2 ≤ 3000 * (emission s.alreadyGeneratedCoins version).toNat) :
    s.FeesHold version graceBlocks := by
  obtain ⟨fl, fn, fm, fh, f₀, f₁, f₂, f₃, hestimate, h₀, h₁, h₂, h₃, hfees⟩ := h.exists_estimate hv hgrace hfits
  have hfull : fullZone ≤ longTermZone window graceBlocks s.db := le_max_left _ _
  have hzone : 0 < longTermZone window graceBlocks s.db := lt_of_lt_of_le (by decide) hfull
  have hpos : 1 ≤ fl.toNat := by
    rw [hestimate.low, Nat.le_div_iff_mul_le (Nat.mul_pos hzone hzone), ← sq]
    omega
  have hle₀ : fl.toNat ≤ f₀.toNat := (isLeast_roundMoneyUp (by decide) h₀).1.1
  have h₀₁ := roundMoneyUp_mono (by decide) h₀ h₁ hestimate.low_le
  have h₁₂ := roundMoneyUp_mono (by decide) h₁ h₂ hestimate.normal_le
  have h₂₃ := roundMoneyUp_mono (by decide) h₂ h₃ hestimate.medium_le
  refine ⟨_, hfees, rfl, ?_, ?_, fun txWeight fee hfee => ?_⟩
  · simp only [List.mem_cons, List.not_mem_nil, or_false, forall_eq_or_imp, forall_eq, UInt64.lt_iff_toNat_lt]
    have hnone : (0 : UInt64).toNat = 0 := rfl
    omega
  · simp only [List.pairwise_cons, List.mem_cons, List.not_mem_nil, or_false, forall_eq_or_imp, forall_eq,
      UInt64.le_iff_toNat_le, List.Pairwise.nil, and_true, IsEmpty.forall_iff, implies_true]
    omega
  · refine h.checkFee hv hfits (show 0 < f₀.toNat by omega) (le_trans ?_ hle₀) hfee
    rw [hestimate.low]
    have hle := longTermZone_le h.window_pos graceBlocks s.db
    exact Nat.div_le_div_left (Nat.mul_le_mul hle hle) (Nat.mul_pos hzone hzone)

end FeeChain

end

section

theorem sorted_replicate (n : ℕ) (w : UInt64) : sorted (List.replicate n w) = List.replicate n w :=
  List.Pairwise.insertionSort_eq (List.pairwise_replicate.mpr (.inr (UInt64.le_refl w)))

theorem median_replicate {n : ℕ} (hn : 0 < n) (w : UInt64) : median (List.replicate n w) = w := by
  have hget : ∀ i < n, (List.replicate n w).getD i 0 = w := fun i hi => by
    rw [List.getD_eq_getElem _ _ (by rwa [List.length_replicate]), List.getElem_replicate]
  have hne : List.replicate n w ≠ [] := by
    rw [Ne, List.replicate_eq_nil_iff]
    omega
  have hmid : getMid w w = w := by
    rw [← UInt64.toNat_inj, toNat_getMid]
    omega
  rw [median, if_neg hne, sorted_replicate, List.length_replicate]
  dsimp only
  rw [hget (n / 2) (by omega), hget (n / 2 - 1) (by omega), hmid, ite_self]

def steadyFeeChain (n : ℕ) (coins weight : UInt64) : FeeChain where
  db := List.replicate n ⟨coins, weight, weight⟩
  limits := (updateNextCumulativeWeightLimit 100000 16 (List.replicate n ⟨coins, weight, weight⟩) .initial).getD .initial
  rollingMedian := (List.replicate n weight).foldl RollingMedian.insertIn
    (RollingMedian.new 100000 (fun _ => 0) (fun _ => 0) fun _ => 0)

variable {n : ℕ} (coins weight : UInt64)

theorem steadyFeeChain_weights :
    (steadyFeeChain n coins weight).db.map BlockInfo.longTermBlockWeight = List.replicate n weight := by
  rw [steadyFeeChain, List.map_replicate]

theorem steadyFeeChain_current (hn : 0 < n) : (steadyFeeChain n coins weight).Current 100000 16 := by
  obtain ⟨hvalid, hcapacity, hqueue⟩ := RollingMedian.new_valid (n := 100000) (by decide) (fun _ => (0 : UInt64))
    (fun _ => 0) fun _ => 0
  obtain ⟨hvalid, hcapacity, hqueue⟩ := RollingMedian.foldl_insert_recent hvalid hcapacity
    (hqueue.trans List.drop_nil.symm) (List.replicate n weight)
  refine ⟨⟨.initial, ?_⟩, hvalid, hcapacity, ?_⟩
  · have hcount : ¬ min 100000 (List.replicate n (⟨coins, weight, weight⟩ : BlockInfo)).length = 0 := by
      rw [List.length_replicate]
      omega
    rw [steadyFeeChain, updateNextCumulativeWeightLimit, if_neg (by decide), longTermEffectiveMedian,
      getLongTermBlockWeightMedian, if_neg hcount]
    rfl
  · rw [steadyFeeChain_weights]
    exact hqueue

theorem longTermZone_steadyFeeChain (hn : 0 < n) :
    longTermZone 100000 0 (steadyFeeChain n coins weight).db = max fullZone weight.toNat := by
  rw [longTermZone, steadyFeeChain_weights, List.replicate_zero, List.append_nil, RollingMedian.recent,
    List.length_replicate, List.drop_replicate, median_replicate (by omega)]

theorem alreadyGeneratedCoins_steadyFeeChain (hn : 0 < n) :
    (steadyFeeChain n coins weight).alreadyGeneratedCoins = coins := by
  obtain ⟨m, rfl⟩ := Nat.exists_eq_succ_of_ne_zero hn.ne'
  rw [RewardChain.alreadyGeneratedCoins, steadyFeeChain, List.replicate_succ', List.getLast?_concat]
  rfl

end

end Velkavo.Core
