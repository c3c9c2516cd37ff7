import Velkavo.Core.CoinSupply

/-! The coins recorded for the blocks of an alternative chain, against those that the main chain counts for them. -/

namespace Velkavo.Core

open Cryptonote

theorem claimedReward_eq {moneyInUse fee baseReward claimed : UInt64} {version : UInt8} {partialReward : Bool}
    (h : claimedReward moneyInUse fee baseReward version = some (claimed, partialReward)) :
    claimed = moneyInUse - fee := by
  rw [claimedReward] at h
  split_ifs at h with hmore hexact hne hclaim
  · cases h
    rw [← not_not.mp hne, UInt64.add_sub_cancel]
  · cases h
    rfl

namespace RewardChain

variable {s s' t : RewardChain} {window : ℕ} {b : IncomingBlock} {branch : List IncomingBlock}

/-- What `handle_alternative_block` records: all that the coinbase pays counts as new coins. -/
def altGeneratedCoins (prevGeneratedCoins : UInt64) (minerTx : Transaction) : UInt64 :=
  addCoins prevGeneratedCoins (getOutsMoneyAmount minerTx)

def branchCoins (prevGeneratedCoins : UInt64) : List IncomingBlock → List UInt64
  | [] => []
  | b :: branch =>
    altGeneratedCoins prevGeneratedCoins b.minerTx :: branchCoins (altGeneratedCoins prevGeneratedCoins b.minerTx) branch

def SameCoins (s : RewardChain) (b : IncomingBlock) : Prop :=
  b.feeSummary = 0 ∨
    coinCap ≤ s.alreadyGeneratedCoins.toNat + (getOutsMoneyAmount b.minerTx).toNat ∧
      coinCap ≤ s.alreadyGeneratedCoins.toNat + (getOutsMoneyAmount b.minerTx - b.feeSummary).toNat

theorem addCoins_eq_iff (coins paid fee : UInt64) :
    addCoins coins (paid - fee) = addCoins coins paid ↔
      fee = 0 ∨ coinCap ≤ coins.toNat + paid.toNat ∧ coinCap ≤ coins.toNat + (paid - fee).toNat := by
  rw [← UInt64.toNat_inj, toNat_addCoins, toNat_addCoins]
  constructor
  · intro h
    by_cases hfull : coinCap ≤ coins.toNat + paid.toNat ∧ coinCap ≤ coins.toNat + (paid - fee).toNat
    · exact .inr hfull
    · have heq : (paid - fee).toNat = paid.toNat := by omega
      have hfee := fee.toNat_lt
      rw [UInt64.toNat_sub] at heq
      exact .inl (UInt64.toNat_inj.mp (by rw [UInt64.toNat_zero]; omega))
  · rintro (rfl | ⟨hpaid, hclaimed⟩)
    · rw [UInt64.sub_zero]
    · rw [min_eq_left hpaid, min_eq_left hclaimed]

theorem coins_handleBlockToMainChain (h : s.handleBlockToMainChain window b = some s') :
    ∃ info : BlockInfo, s'.db = s.db ++ [info] ∧
      info.coins = addCoins s.alreadyGeneratedCoins (getOutsMoneyAmount b.minerTx - b.feeSummary) := by
  rw [handleBlockToMainChain] at h
  split_ifs at h
  obtain ⟨weight, -, h⟩ := Option.bind_eq_some_iff.mp h
  obtain ⟨⟨claimed, partialReward⟩, hvalidate, h⟩ := Option.bind_eq_some_iff.mp h
  rw [validateMinerTransaction] at hvalidate
  split_ifs at hvalidate
  obtain ⟨reward, -, hclaimed⟩ := Option.bind_eq_some_iff.mp hvalidate
  rw [← claimedReward_eq hclaimed]
  exact store_spec h

theorem db_run (h : run window branch s = some s') : s.db <+: s'.db := by
  induction branch generalizing s with
  | nil => exact (Option.some.inj h) ▸ List.prefix_rfl
  | cons b branch ih =>
    obtain ⟨t, hstep, hrest⟩ := Option.bind_eq_some_iff.mp h
    obtain ⟨info, hdb, -⟩ := coins_handleBlockToMainChain hstep
    exact (hdb ▸ List.prefix_append s.db [info]).trans (ih hrest)

theorem sameCoins_cons (hstep : s.handleBlockToMainChain window b = some t) :
    (∀ done b' rest t', b :: branch = done ++ b' :: rest → run window done s = some t' → t'.SameCoins b') ↔
      s.SameCoins b ∧
        ∀ done b' rest t', branch = done ++ b' :: rest → run window done t = some t' → t'.SameCoins b' := by
  have hrun : ∀ done, run window (b :: done) s = run window done t := by
    intro done
    rw [run, hstep, Option.bind_some]
  constructor
  · intro h
    refine ⟨h [] b branch s rfl rfl, fun done b' rest t' hsplit ht' => ?_⟩
    exact h (b :: done) b' rest t' (by rw [hsplit, List.cons_append]) ((hrun done).trans ht')
  · rintro ⟨hb, h⟩ done b' rest t' hsplit ht'
    cases done with
    | nil =>
      cases hsplit
      cases ht'
      exact hb
    | cons _ done =>
      obtain ⟨rfl, htail⟩ := List.cons.inj hsplit
      exact h done b' rest t' htail ((hrun done).symm.trans ht')

theorem branchCoins_iff (window : ℕ) (s final : RewardChain) (branch : List IncomingBlock)
    (hrun : run window branch s = some final) :
    (final.db.drop s.db.length).map BlockInfo.coins = branchCoins s.alreadyGeneratedCoins branch ↔
      ∀ done b rest t, branch = done ++ b :: rest → run window done s = some t → t.SameCoins b := by
  induction branch generalizing s with
  | nil =>
    cases hrun
    refine iff_of_true (by rw [List.drop_length]; rfl) fun done b rest t hsplit => by simp at hsplit
  | cons b branch ih =>
    obtain ⟨t, hstep, hrest⟩ := Option.bind_eq_some_iff.mp hrun
    obtain ⟨info, hdb, hcoins⟩ := coins_handleBlockToMainChain hstep
    have htop : t.alreadyGeneratedCoins = info.coins := by
      rw [alreadyGeneratedCoins, hdb, List.getLast?_concat]
      rfl
    have hfinal : final.db.drop s.db.length = info :: final.db.drop t.db.length := by
      obtain ⟨infos, hinfos⟩ := db_run hrest
      rw [← hinfos, hdb, List.append_assoc, List.drop_left, ← List.append_assoc, List.drop_left]
      rfl
    rw [sameCoins_cons hstep, hfinal, List.map_cons, branchCoins, List.cons.injEq, hcoins, altGeneratedCoins, addCoins_eq_iff]
    refine and_congr_right fun hsame => ?_
    rw [← ih t hrest, htop, hcoins, (addCoins_eq_iff _ _ _).mpr hsame]

theorem branchCoins_iff_early :
    ∃ final, run 100000 [earlyBlock 1 17592169267200 []] genesisChain = some final ∧
      (final.db.drop 1).map BlockInfo.coins =
        branchCoins genesisChain.alreadyGeneratedCoins [earlyBlock 1 17592169267200 []] := by
  have hsome : (run 100000 [earlyBlock 1 17592169267200 []] genesisChain).isSome = true := by decide
  obtain ⟨final, hrun⟩ := Option.isSome_iff_exists.mp hsome
  refine ⟨final, hrun, (branchCoins_iff 100000 genesisChain final _ hrun).mpr fun done b rest t hsplit _ => ?_⟩
  match done, hsplit with
  | [], hsplit =>
    cases hsplit
    exact .inl rfl
  | _ :: _, hsplit => simp at hsplit

theorem branchCoins_fee :
    (run 100000 [earlyBlock 1 17592169267205 [5]] genesisChain).map
        (fun final => (final.db.drop 1).map BlockInfo.coins) = some [35184355311615] ∧
      branchCoins genesisChain.alreadyGeneratedCoins [earlyBlock 1 17592169267205 [5]] = [35184355311620] := by
  decide

end RewardChain

end Velkavo.Core
