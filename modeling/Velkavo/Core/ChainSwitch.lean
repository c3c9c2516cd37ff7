import Velkavo.Core.AlternativeChain

/-! What popping and connecting blocks leaves of the main chain. -/

namespace Velkavo.Core

open Cryptonote

namespace Blockchain

variable {c : HashFunctions} {r : Rules} {s : Blockchain} {bl : Block} {bvc : BlockVerificationContext}

theorem popBlockFromBlockchain_eq {e : DbBlock} (he : s.db.getLast? = some e) (hlen : 1 < s.db.length) :
    s.popBlockFromBlockchain = some ({ s with db := s.db.dropLast, blocksLonghashTable := ∅ }, e.bl) := by
  rw [popBlockFromBlockchain, if_pos hlen, he]
  rfl

theorem popWhile_eq {go : Blockchain → Bool} {k fuel : ℕ} (hk : 0 < k) (hle : k ≤ s.db.length)
    (hfuel : s.db.length - k ≤ fuel) (popped : List Block)
    (hgo : ∀ (t : Blockchain) (j : ℕ), k < j → j ≤ s.db.length → t.db = s.db.take j → go t = true)
    (hstop : k = 1 ∨ ∀ t : Blockchain, t.db = s.db.take k → go t = false) :
    ∃ table, popWhile go fuel s popped =
      ({ s with db := s.db.take k, blocksLonghashTable := table }, (s.db.drop k).map DbBlock.bl ++ popped) := by
  obtain ⟨m, hm⟩ : ∃ m, m = s.db.length - k := ⟨_, rfl⟩
  induction m generalizing s fuel popped with
  | zero =>
    have hlen : k = s.db.length := by omega
    subst hlen
    have hsame : s.db.take s.db.length = s.db := List.take_length
    refine ⟨s.blocksLonghashTable, ?_⟩
    rw [hsame, List.drop_length, List.map_nil, List.nil_append]
    cases fuel with
    | zero => rfl
    | succ fuel =>
      rw [popWhile]
      rcases hstop with hone | hstop
      · have hnone : s.popBlockFromBlockchain = none := if_neg (by omega)
        rw [hnone]
        split_ifs <;> rfl
      · rw [hstop s hsame.symm, if_neg Bool.false_ne_true]
  | succ m ih =>
    obtain ⟨fuel, rfl⟩ : ∃ fuel', fuel = fuel' + 1 := ⟨fuel - 1, by omega⟩
    have hne : s.db ≠ [] := List.ne_nil_of_length_pos (by omega)
    have hlast := List.getLast?_eq_some_getLast hne
    have hdb : s.db.dropLast ++ [s.db.getLast hne] = s.db := List.dropLast_append_getLast hne
    have hlen : s.db.dropLast.length = s.db.length - 1 := List.length_dropLast
    have htake : ∀ j, j ≤ s.db.length - 1 → s.db.dropLast.take j = s.db.take j := by
      intro j hj
      rw [List.dropLast_eq_take, List.take_take, min_eq_left hj]
    have hdrop : s.db.drop k = s.db.dropLast.drop k ++ [s.db.getLast hne] := by
      rw [← List.drop_append_of_le_length (by omega), hdb]
    rw [popWhile, hgo s s.db.length (by omega) le_rfl List.take_length.symm, if_pos rfl,
      popBlockFromBlockchain_eq hlast (by omega)]
    obtain ⟨table, hpop⟩ := @ih { s with db := s.db.dropLast, blocksLonghashTable := ∅ } fuel
      (by rw [hlen]; omega) (by rw [hlen]; omega) ((s.db.getLast hne).bl :: popped)
      (fun t j hj hjle ht => hgo t j hj (by rw [hlen] at hjle; omega) (by rw [ht, htake j (by rw [← hlen]; exact hjle)]))
      (hstop.imp_right fun hstop t ht => hstop t (by rw [ht, htake k (by omega)])) (by rw [hlen]; omega)
    refine ⟨table, hpop.trans ?_⟩
    rw [htake k (by omega), hdrop, List.map_append, List.append_assoc]
    rfl

theorem popWhile_height {height : ℕ} (hpos : 0 < s.db.length) (hle : height ≤ s.db.length) :
    ∃ table, popWhile (fun s => s.db.length ≠ height) s.db.length s [] =
      ({ s with db := s.db.take (max height 1), blocksLonghashTable := table },
        (s.db.drop (max height 1)).map DbBlock.bl) := by
  have hgo : ∀ (t : Blockchain) (j : ℕ), max height 1 < j → j ≤ s.db.length → t.db = s.db.take j →
      decide (t.db.length ≠ height) = true := by
    intro t j hj hjle ht
    rw [ht, List.length_take, min_eq_left hjle]
    exact decide_eq_true (by omega)
  have hstop : max height 1 = 1 ∨ ∀ t : Blockchain, t.db = s.db.take (max height 1) →
      decide (t.db.length ≠ height) = false := by
    by_cases hzero : height = 0
    · exact .inl (by omega)
    · refine .inr fun t ht => ?_
      rw [ht, List.length_take]
      exact decide_eq_false (by omega)
  obtain ⟨table, hpop⟩ := @popWhile_eq s _ _ s.db.length (by omega) (by omega) (by omega) [] hgo hstop
  exact ⟨table, by rw [hpop, List.append_nil]⟩

theorem rollbackBlockchainSwitching_nil {height : ℕ} (hpos : 0 < s.db.length) (hle : height ≤ s.db.length) :
    ∃ table, s.rollbackBlockchainSwitching c r [] height =
      { s with db := s.db.take (max height 1), blocksLonghashTable := table } := by
  obtain ⟨table, hpop⟩ := popWhile_height hpos hle
  refine ⟨table, ?_⟩
  rw [rollbackBlockchainSwitching, if_neg (by omega), hpop]
  rfl

end Blockchain

end Velkavo.Core
