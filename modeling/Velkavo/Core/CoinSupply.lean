import Velkavo.Core.BlockReward

/-! The coins that the chain counts are those that its coinbases created, as long as no sum leaves 64 bits. -/

namespace Velkavo.Core

open Cryptonote

def coinCap : ℕ := 2 ^ 64 - 1

def tailEmission (version : UInt8) : ℕ := 300000000000 * targetMinutes version

def emissionFormula (coins : ℕ) (version : UInt8) : ℕ :=
  max ((coinCap - coins) / 2 ^ emissionSpeedFactor version) (tailEmission version)

def penalized (median weight amount : ℕ) : ℕ :=
  if weight ≤ median then amount else amount * ((2 * median - weight) * weight) / median / median

theorem penalized_mono (median weight : ℕ) {amount amount' : ℕ} (h : amount ≤ amount') :
    penalized median weight amount ≤ penalized median weight amount' := by
  rw [penalized, penalized]
  split_ifs
  · exact h
  · exact Nat.div_le_div_right (Nat.div_le_div_right (Nat.mul_le_mul_right _ h))

theorem penalized_le {median weight : ℕ} (hweight : weight ≤ 2 * median) (amount : ℕ) :
    penalized median weight amount ≤ amount := by
  rw [penalized]
  split_ifs with hle
  · exact le_rfl
  · have hfactor : (2 * median - weight) * weight ≤ median * median := by
      obtain ⟨excess, rfl⟩ := Nat.exists_eq_add_of_lt (not_le.mp hle)
      have hsub : 2 * median - (median + excess + 1) = median - (excess + 1) := by omega
      have hle' : excess + 1 ≤ median := by omega
      obtain ⟨rest, rfl⟩ := Nat.exists_eq_add_of_le hle'
      rw [hsub, Nat.add_sub_cancel_left]
      nlinarith
    rw [Nat.div_div_eq_div_mul]
    refine Nat.div_le_of_le_mul ?_
    rw [Nat.mul_comm _ amount]
    exact Nat.mul_le_mul_left amount hfactor

theorem targetMinutes_cases (version : UInt8) : targetMinutes version = 1 ∨ targetMinutes version = 2 := by
  rw [targetMinutes]
  split_ifs
  · exact .inl rfl
  · exact .inr rfl

theorem toNat_emission (coins : UInt64) (version : UInt8) :
    (emission coins version).toNat = emissionFormula coins.toNat version := by
  have hsupply : moneySupply.toNat = coinCap := rfl
  have hle : coins ≤ moneySupply := by
    rw [UInt64.le_iff_toNat_le, hsupply]
    exact Nat.le_sub_one_of_lt coins.toNat_lt
  have hfinal : (finalSubsidy version).toNat = tailEmission version := by
    rw [finalSubsidy, tailEmission]
    rcases targetMinutes_cases version with h | h <;> rw [h] <;> rfl
  have hshift : ((moneySupply - coins) >>> UInt64.ofNat (emissionSpeedFactor version)).toNat =
      (coinCap - coins.toNat) / 2 ^ emissionSpeedFactor version := by
    have hfactor : (UInt64.ofNat (emissionSpeedFactor version)).toNat % 64 = emissionSpeedFactor version := by
      rw [emissionSpeedFactor]
      rcases targetMinutes_cases version with h | h <;> rw [h] <;> rfl
    rw [UInt64.toNat_shiftRight, hfactor, UInt64.toNat_sub_of_le _ _ hle, hsupply, Nat.shiftRight_eq_div_pow]
  rw [emission, emissionFormula]
  split_ifs with hlt
  · rw [UInt64.lt_iff_toNat_lt, hshift, hfinal] at hlt
    rw [hfinal, max_eq_right hlt.le]
  · rw [UInt64.lt_iff_toNat_lt, hshift, hfinal, not_lt] at hlt
    rw [hshift, max_eq_left hlt]

theorem tailEmission_le (coins : ℕ) (version : UInt8) : tailEmission version ≤ emissionFormula coins version :=
  le_max_right _ _

theorem softMedian_pos (medianWeight : UInt64) (version : UInt8) : 0 < (softMedian medianWeight version).toNat := by
  have hmin : 0 < (getMinBlockWeight version).toNat := by
    rw [getMinBlockWeight]
    split_ifs <;> decide
  rw [softMedian]
  split_ifs with hlt
  · exact hmin
  · rw [UInt64.lt_iff_toNat_lt, not_lt] at hlt
    exact hmin.trans_le hlt

def PenaltyFits (median weight : ℕ) : Prop :=
  median < weight → 2 * median < 2 ^ 64 ∧ (2 * median - weight) * weight < 2 ^ 64

theorem toNat_getBlockReward {medianWeight weight coins reward : UInt64} {version : UInt8}
    (h : getBlockReward medianWeight weight coins version = some reward)
    (hfits : PenaltyFits (softMedian medianWeight version).toNat weight.toNat) :
    weight.toNat ≤ 2 * (softMedian medianWeight version).toNat ∧
      reward.toNat = penalized (softMedian medianWeight version).toNat weight.toNat
        (emissionFormula coins.toNat version) := by
  rw [getBlockReward] at h
  generalize softMedian medianWeight version = soft at *
  rw [penalized, ← toNat_emission]
  dsimp only at h
  split_ifs at h with hle hgt
  · rw [UInt64.le_iff_toNat_le] at hle
    rw [if_pos hle, Option.some.inj h]
    exact ⟨by omega, rfl⟩
  · rw [UInt64.le_iff_toNat_le] at hle
    obtain ⟨hdouble, hproduct⟩ := hfits (not_le.mp hle)
    have htwo : (2 * soft).toNat = 2 * soft.toNat := by
      rw [UInt64.toNat_mul]
      exact Nat.mod_eq_of_lt hdouble
    rw [gt_iff_lt, UInt64.lt_iff_toNat_lt, htwo, not_lt] at hgt
    have hsub : (2 * soft - weight).toNat = 2 * soft.toNat - weight.toNat := by
      rw [UInt64.toNat_sub_of_le _ _ (UInt64.le_iff_toNat_le.mpr (htwo ▸ hgt)), htwo]
    have hfactor : ((2 * soft - weight) * weight).toNat = (2 * soft.toNat - weight.toNat) * weight.toNat := by
      rw [UInt64.toNat_mul, hsub]
      exact Nat.mod_eq_of_lt hproduct
    have hle' := penalized_le hgt (emission coins version).toNat
    rw [penalized, if_neg hle] at hle'
    rw [if_neg hle, ← Option.some.inj h, hfactor, UInt64.toNat_ofNat']
    exact ⟨hgt, Nat.mod_eq_of_lt (hle'.trans_lt (emission coins version).toNat_lt)⟩

theorem claimedReward_spec {moneyInUse fee baseReward claimed : UInt64} {version : UInt8} {partialReward : Bool}
    (h : claimedReward moneyInUse fee baseReward version = some (claimed, partialReward))
    (hfits : baseReward.toNat + fee.toNat < 2 ^ 64) :
    fee.toNat ≤ moneyInUse.toNat ∧ moneyInUse.toNat ≤ baseReward.toNat + fee.toNat ∧
      claimed.toNat = moneyInUse.toNat - fee.toNat ∧
      (version < 2 ∨ version ≥ hfVersionExactCoinbase → moneyInUse.toNat = baseReward.toNat + fee.toNat) := by
  have hsum : (baseReward + fee).toNat = baseReward.toNat + fee.toNat := by
    rw [UInt64.toNat_add]
    exact Nat.mod_eq_of_lt hfits
  rw [claimedReward] at h
  split_ifs at h with hmore hexact hne hclaim
  · rw [not_not] at hne
    cases h
    rw [← hne, hsum]
    omega
  · cases h
    rw [UInt64.lt_iff_toNat_lt, hsum, not_lt] at hmore
    rw [UInt64.le_iff_toNat_le, UInt64.toNat_sub] at hclaim
    have hlt := moneyInUse.toNat_lt
    have hfee : fee.toNat ≤ moneyInUse.toNat := by
      by_contra hlt'
      rw [Nat.mod_eq_of_lt (by omega)] at hclaim
      omega
    refine ⟨hfee, hmore, ?_, fun hexact' => absurd hexact' hexact⟩
    exact UInt64.toNat_sub_of_le _ _ (UInt64.le_iff_toNat_le.mpr hfee)

theorem foldl_add_toNat (amounts : List UInt64) (start : UInt64)
    (h : start.toNat + (amounts.map UInt64.toNat).sum < 2 ^ 64) :
    (amounts.foldl (· + ·) start).toNat = start.toNat + (amounts.map UInt64.toNat).sum := by
  induction amounts generalizing start with
  | nil => rfl
  | cons amount rest ih =>
    rw [List.map_cons, List.sum_cons] at h ⊢
    have hadd : (start + amount).toNat = start.toNat + amount.toNat := by
      rw [UInt64.toNat_add]
      exact Nat.mod_eq_of_lt (by omega)
    rw [List.foldl_cons, ih _ (by rw [hadd]; omega), hadd, Nat.add_assoc]

theorem sum_lt_of_sumFits {amounts : List UInt64} {money : UInt64} (h : sumFits money amounts = true) :
    money.toNat + (amounts.map UInt64.toNat).sum < 2 ^ 64 := by
  induction amounts generalizing money with
  | nil => exact money.toNat_lt
  | cons amount rest ih =>
    rw [sumFits] at h
    split_ifs at h with hover
    rw [gt_iff_lt, UInt64.lt_iff_toNat_lt, UInt64.toNat_add, not_lt] at hover
    have hrest := ih h
    have hmoney := money.toNat_lt
    have hamount := amount.toNat_lt
    rw [UInt64.toNat_add] at hrest
    rw [List.map_cons, List.sum_cons]
    omega

namespace IncomingBlock

def fees (b : IncomingBlock) : ℕ := (b.txs.map fun tx => tx.fee.toNat).sum

def paid (b : IncomingBlock) : ℕ := (b.minerTx.vout.map fun o => o.amount.toNat).sum

def generated (b : IncomingBlock) : ℕ := b.paid - b.fees

theorem toNat_feeSummary {b : IncomingBlock} (h : b.fees ≤ coinCap) : b.feeSummary.toNat = b.fees := by
  have hsum : ((b.txs.map BlockTx.fee).map UInt64.toNat).sum = b.fees := by
    rw [List.map_map]
    rfl
  have hlt : (0 : UInt64).toNat + ((b.txs.map BlockTx.fee).map UInt64.toNat).sum < 2 ^ 64 := by
    rw [hsum, UInt64.toNat_zero, Nat.zero_add]
    exact Nat.lt_of_le_pred (by decide) h
  rw [feeSummary, foldl_add_toNat _ _ hlt, hsum]
  exact Nat.zero_add _

theorem toNat_getOutsMoneyAmount {b : IncomingBlock} (h : checkOutsOverflow b.minerTx = true) :
    (getOutsMoneyAmount b.minerTx).toNat = b.paid := by
  have hlt := sum_lt_of_sumFits h
  rw [getOutsMoneyAmount, foldl_add_toNat _ _ hlt, List.map_map]
  exact Nat.zero_add _

end IncomingBlock

namespace RewardChain

variable {s s' : RewardChain} {window : ℕ} {b : IncomingBlock}

def blockMedian (s : RewardChain) (version : UInt8) : ℕ := (softMedian (s.penaltyMedian version) version).toNat

def Fits (s : RewardChain) (b : IncomingBlock) : Prop :=
  ∀ weight, b.cumulativeBlockWeight = some weight →
    PenaltyFits (s.blockMedian b.hfVersion) weight.toNat ∧
      penalized (s.blockMedian b.hfVersion) weight.toNat
        (emissionFormula s.alreadyGeneratedCoins.toNat b.hfVersion) + b.fees ≤ coinCap

structure Pays (s : RewardChain) (b : IncomingBlock) (weight reward : UInt64) : Prop where
  baseReward : getBlockReward (s.penaltyMedian b.hfVersion) weight s.alreadyGeneratedCoins b.hfVersion = some reward
  tail_le : penalized (s.blockMedian b.hfVersion) weight.toNat (tailEmission b.hfVersion) ≤ reward.toNat
  le_emission : reward.toNat ≤ emissionFormula s.alreadyGeneratedCoins.toNat b.hfVersion
  exact : b.hfVersion < 2 ∨ b.hfVersion ≥ hfVersionExactCoinbase → b.paid = reward.toNat + b.fees
  fees_le : b.fees ≤ b.paid
  paid_le : b.paid ≤ reward.toNat + b.fees

theorem toNat_addCoins (coins baseReward : UInt64) :
    (addCoins coins baseReward).toNat = min coinCap (coins.toNat + baseReward.toNat) := by
  have hsupply : moneySupply.toNat = coinCap := rfl
  have hcap : coinCap = 2 ^ 64 - 1 := rfl
  have hcoins := coins.toNat_lt
  have hsub : (moneySupply - coins).toNat = coinCap - coins.toNat := by
    rw [UInt64.toNat_sub_of_le _ _ (UInt64.le_iff_toNat_le.mpr (by omega)), hsupply]
  rw [addCoins]
  split_ifs with hlt
  · rw [UInt64.lt_iff_toNat_lt, hsub] at hlt
    rw [UInt64.toNat_add, Nat.mod_eq_of_lt (by omega)]
    omega
  · rw [UInt64.lt_iff_toNat_lt, hsub] at hlt
    omega

theorem store_spec {weight baseReward : UInt64} (h : s.store window b weight baseReward = some s') :
    ∃ info : BlockInfo, s'.db = s.db ++ [info] ∧ info.coins = addCoins s.alreadyGeneratedCoins baseReward := by
  rw [store] at h
  obtain ⟨longTerm, -, h⟩ := Option.bind_eq_some_iff.mp h
  obtain ⟨limits, -, h⟩ := Option.bind_eq_some_iff.mp h
  generalize addCoins s.alreadyGeneratedCoins baseReward = coins at h ⊢
  cases h
  exact ⟨_, rfl, rfl⟩

theorem handleBlockToMainChain_spec (h : s.handleBlockToMainChain window b = some s') (hfees : b.fees ≤ coinCap)
    (hfits : s.Fits b) :
    (∃ weight reward, b.cumulativeBlockWeight = some weight ∧ s.Pays b weight reward) ∧
      ∃ info : BlockInfo, s'.db = s.db ++ [info] ∧
        info.coins.toNat = min coinCap (s.alreadyGeneratedCoins.toNat + b.generated) := by
  rw [handleBlockToMainChain] at h
  split_ifs at h with hchecks
  rw [Bool.or_eq_true, not_or, Bool.not_eq_true', Bool.not_eq_true', Bool.not_eq_false, Bool.not_eq_false] at hchecks
  have hpaid : (getOutsMoneyAmount b.minerTx).toNat = b.paid := by
    refine IncomingBlock.toNat_getOutsMoneyAmount ?_
    have hvalid := hchecks.2
    simp only [prevalidateMinerTransaction, Bool.and_eq_true] at hvalid
    exact hvalid.1.2
  obtain ⟨weight, hweight, h⟩ := Option.bind_eq_some_iff.mp h
  obtain ⟨⟨claimed, partialReward⟩, hvalidate, h⟩ := Option.bind_eq_some_iff.mp h
  rw [validateMinerTransaction] at hvalidate
  split_ifs at hvalidate with hdecomposed
  obtain ⟨reward, hreward, hclaimed⟩ := Option.bind_eq_some_iff.mp hvalidate
  obtain ⟨hpenalty, hsum⟩ := hfits weight hweight
  obtain ⟨hheavy, hformula⟩ := toNat_getBlockReward hreward hpenalty
  have hfee := IncomingBlock.toNat_feeSummary hfees
  have hlt : reward.toNat + b.feeSummary.toNat < 2 ^ 64 := by
    rw [hformula, hfee]
    exact Nat.lt_of_le_pred (by decide) hsum
  obtain ⟨hfees_le, hpaid_le, hgenerated, hexact⟩ := claimedReward_spec hclaimed hlt
  rw [hpaid, hfee] at hfees_le hpaid_le hgenerated hexact
  refine ⟨⟨weight, reward, hweight, hreward, ?_, ?_, hexact, hfees_le, hpaid_le⟩, ?_⟩
  · rw [hformula]
    exact penalized_mono _ _ (tailEmission_le _ _)
  · rw [hformula]
    exact penalized_le hheavy _
  · obtain ⟨info, hdb, hcoins⟩ := store_spec h
    refine ⟨info, hdb, ?_⟩
    rw [hcoins, toNat_addCoins, hgenerated]
    rfl

theorem min_add_min (cap a b : ℕ) : min cap (min cap a + b) = min cap (a + b) := by omega

theorem run_spec {blocks : List IncomingBlock} {created : ℕ} (hrun : run window blocks s = some s')
    (hcoins : s.alreadyGeneratedCoins.toNat = min coinCap created) (hfees : ∀ b ∈ blocks, b.fees ≤ coinCap)
    (hfits : ∀ done b rest, blocks = done ++ b :: rest → ∀ t, run window done s = some t → t.Fits b) :
    (∃ infos : List BlockInfo, s'.db = s.db ++ infos ∧ infos.length = blocks.length ∧
      ∀ k info, infos[k]? = some info →
        info.coins.toNat = min coinCap (created + ((blocks.take (k + 1)).map IncomingBlock.generated).sum)) ∧
      ∀ done b rest, blocks = done ++ b :: rest → ∃ t weight reward, run window done s = some t ∧
        b.cumulativeBlockWeight = some weight ∧ t.Pays b weight reward := by
  induction blocks generalizing s created with
  | nil =>
    refine ⟨⟨[], ?_, rfl, fun k info hinfo => by simp at hinfo⟩, fun done b rest hsplit => by simp at hsplit⟩
    rw [List.append_nil, Option.some.inj hrun]
  | cons b blocks ih =>
    obtain ⟨t, hstep, hrest⟩ := Option.bind_eq_some_iff.mp hrun
    have hb : s.Fits b := hfits [] b blocks rfl s rfl
    obtain ⟨⟨weight, reward, hweight, hpays⟩, info, hdb, hinfo⟩ :=
      handleBlockToMainChain_spec hstep (hfees b List.mem_cons_self) hb
    rw [hcoins, min_add_min] at hinfo
    have htop : t.alreadyGeneratedCoins.toNat = min coinCap (created + b.generated) := by
      rw [alreadyGeneratedCoins, hdb, List.getLast?_concat]
      exact hinfo
    have hrun' : ∀ done, run window (b :: done) s = run window done t := by
      intro done
      rw [run, hstep, Option.bind_some]
    obtain ⟨⟨infos, hdb', hlength, hall⟩, hpays'⟩ := ih hrest htop
      (fun b' hb' => hfees b' (List.mem_cons_of_mem _ hb')) fun done b' rest hsplit t' ht' =>
        hfits (b :: done) b' rest (by rw [hsplit, List.cons_append]) t' ((hrun' done).trans ht')
    refine ⟨⟨info :: infos, ?_, ?_, ?_⟩, ?_⟩
    · rw [hdb', hdb, List.append_assoc]
      rfl
    · rw [List.length_cons, List.length_cons, hlength]
    · intro k info' hinfo'
      cases k with
      | zero =>
        rw [List.getElem?_cons_zero, Option.some.injEq] at hinfo'
        rw [← hinfo', hinfo, List.take_succ_cons, List.take_zero, List.map_singleton, List.sum_singleton]
      | succ k =>
        rw [hall k info' hinfo', List.take_succ_cons, List.map_cons, List.sum_cons, Nat.add_assoc]
    · intro done b' rest hsplit
      cases done with
      | nil =>
        cases hsplit
        exact ⟨s, weight, reward, rfl, hweight, hpays⟩
      | cons _ done =>
        obtain ⟨rfl, hsplit'⟩ := List.cons.inj hsplit
        rw [hrun' done]
        exact hpays' done b' rest hsplit'

theorem coins_eq_generated (window : ℕ) (start final : RewardChain) (blocks : List IncomingBlock) (hempty : start.db = [])
    (hrun : run window blocks start = some final) (hfees : ∀ b ∈ blocks, b.fees ≤ coinCap)
    (hfits : ∀ done b rest, blocks = done ++ b :: rest → ∀ s, run window done start = some s → s.Fits b) :
    final.db.length = blocks.length ∧
      (∀ k info, final.db[k]? = some info →
        info.coins.toNat = min coinCap ((blocks.take (k + 1)).map IncomingBlock.generated).sum) ∧
      ∀ done b rest, blocks = done ++ b :: rest → ∃ s weight reward, run window done start = some s ∧
        b.cumulativeBlockWeight = some weight ∧ s.Pays b weight reward := by
  have hcoins : start.alreadyGeneratedCoins.toNat = min coinCap 0 := by
    rw [alreadyGeneratedCoins, hempty]
    rfl
  obtain ⟨⟨infos, hdb, hlength, hall⟩, hpays⟩ := run_spec hrun hcoins hfees hfits
  rw [hempty, List.nil_append] at hdb
  refine ⟨hdb ▸ hlength, fun k info hinfo => ?_, hpays⟩
  rw [hall k info (hdb ▸ hinfo), Nat.zero_add]

def emptyChain : RewardChain := ⟨[], .initial⟩

def coinbase (height : UInt64) (amount : UInt64) : Transaction :=
  ⟨⟨1, height + 60, [.gen height], [⟨amount, .toKey default⟩], []⟩, [], default, false⟩

def earlyBlock (height amount : UInt64) (fees : List UInt64) : IncomingBlock :=
  ⟨coinbase height amount, 80, fees.map fun fee => ⟨1000, fee, false⟩, 0, 1, 1, true⟩

def genesisChain : RewardChain := ⟨[⟨17592186044415, 80, 80⟩], ⟨20000, 40000, 0⟩⟩

theorem run_genesis : run 100000 [earlyBlock 0 17592186044415 []] emptyChain = some genesisChain := by decide

theorem Fits.of_weight {weight : UInt64} (hweight : b.cumulativeBlockWeight = some weight)
    (hlight : weight.toNat ≤ s.blockMedian b.hfVersion)
    (hsum : emissionFormula s.alreadyGeneratedCoins.toNat b.hfVersion + b.fees ≤ coinCap) : s.Fits b := by
  intro weight' hweight'
  rw [hweight, Option.some.injEq] at hweight'
  rw [← hweight', penalized, if_pos hlight]
  exact ⟨fun hheavy => absurd hlight (not_le.mpr hheavy), hsum⟩

theorem coins_eq_generated_early :
    ∃ final, run 100000 [earlyBlock 0 17592186044415 [], earlyBlock 1 17592169267205 [5]] emptyChain = some final ∧
      final.db.length = 2 ∧ ∀ info, final.db[1]? = some info → info.coins.toNat = 17592186044415 + 17592169267200 := by
  have hsome : (run 100000 [earlyBlock 0 17592186044415 [], earlyBlock 1 17592169267205 [5]] emptyChain).isSome = true := by
    decide
  have hfits : ∀ done b rest, [earlyBlock 0 17592186044415 [], earlyBlock 1 17592169267205 [5]] = done ++ b :: rest →
      ∀ s, run 100000 done emptyChain = some s → s.Fits b := by
    intro done b rest hsplit s hs
    match done, hsplit with
    | [], hsplit =>
      cases hsplit
      cases hs
      exact Fits.of_weight rfl (by decide) (by decide)
    | [_], hsplit =>
      cases hsplit
      cases Option.some.inj (hs.symm.trans run_genesis)
      exact Fits.of_weight rfl (by decide) (by decide)
    | _ :: _ :: _, hsplit => simp at hsplit
  obtain ⟨final, hrun⟩ := Option.isSome_iff_exists.mp hsome
  obtain ⟨hlength, hcoins, -⟩ := coins_eq_generated 100000 emptyChain final _ rfl hrun (by decide) hfits
  refine ⟨final, hrun, hlength, fun info hinfo => ?_⟩
  rw [hcoins 1 info hinfo]
  decide

theorem coinbase_loses_fee :
    ∃ s t reward, run 100000 [earlyBlock 0 17592186044415 []] emptyChain = some s ∧
      (earlyBlock 1 17592169267199 [0xffffffffffffffff]).fees ≤ coinCap ∧
      s.handleBlockToMainChain 100000 (earlyBlock 1 17592169267199 [0xffffffffffffffff]) = some t ∧
      (earlyBlock 1 17592169267199 [0xffffffffffffffff]).cumulativeBlockWeight = some 1080 ∧
      getBlockReward (s.penaltyMedian 1) 1080 s.alreadyGeneratedCoins 1 = some reward ∧
      (earlyBlock 1 17592169267199 [0xffffffffffffffff]).paid < reward.toNat := by
  have hsome : (genesisChain.handleBlockToMainChain 100000
      (earlyBlock 1 17592169267199 [0xffffffffffffffff])).isSome = true := by decide
  obtain ⟨t, ht⟩ := Option.isSome_iff_exists.mp hsome
  exact ⟨genesisChain, t, 17592169267200, run_genesis, by decide, ht, by decide, by decide, by decide⟩

end RewardChain

end Velkavo.Core
