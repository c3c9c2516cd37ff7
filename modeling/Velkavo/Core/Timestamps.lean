import Velkavo.Core.Blockchain

namespace Velkavo.Core

open Cryptonote

def blockchainTimestampCheckWindow : ℕ := 60

def getMid (a b : UInt64) : UInt64 := a / 2 + b / 2 + ((a - 2 * (a / 2)) + (b - 2 * (b / 2))) / 2

def sorted (v : List UInt64) : List UInt64 := v.insertionSort (· ≤ ·)

def median (v : List UInt64) : UInt64 :=
  if v = [] then 0
  else
    let n := v.length / 2
    if v.length % 2 = 1 then (sorted v).getD n 0 else getMid ((sorted v).getD (n - 1) 0) ((sorted v).getD n 0)

def timestamp (e : DbBlock) : UInt64 := e.bl.timestamp

def checkTimestampMedian (timestamps : List UInt64) (b : Block) : Bool := !decide (b.timestamp < median timestamps)

def mainTimestamps (db : List DbBlock) : Option (List UInt64) :=
  if db.length < blockchainTimestampCheckWindow then none
  else some ((db.drop (db.length - blockchainTimestampCheckWindow)).map timestamp)

def checkMainMedian (db : List DbBlock) (b : Block) : Bool :=
  match mainTimestamps db with
  | none => true
  | some timestamps => checkTimestampMedian timestamps b

def completeTimestampsVector (db : List DbBlock) (startTopHeight : ℕ) (timestamps : List UInt64) : List UInt64 :=
  if timestamps.length ≥ blockchainTimestampCheckWindow then timestamps
  else if !decide (startTopHeight < db.length) then timestamps
  else
    let needElements := blockchainTimestampCheckWindow - timestamps.length
    let stopOffset := if startTopHeight > needElements then startTopHeight - needElements else 0
    timestamps ++ (((db.take (startTopHeight + 1)).drop (stopOffset + 1)).map timestamp).reverse

def altTimestamps (db : List DbBlock) (forkHeight : ℕ) (altChain : List BlockExtendedInfo) : List UInt64 :=
  completeTimestampsVector db forkHeight (altChain.map fun bei => bei.bl.timestamp).reverse

def altEntry (bei : BlockExtendedInfo) : DbBlock := ⟨bei.bl, bei.cumulativeDifficulty⟩

def asMainChain (db : List DbBlock) (forkHeight : ℕ) (altChain : List BlockExtendedInfo) : List DbBlock :=
  db.take (forkHeight + 1) ++ altChain.map altEntry

def SameTimestamps (alt : List UInt64) : Option (List UInt64) → Prop
  | none => alt = []
  | some main => alt.Perm main

instance isTrans_le : IsTrans UInt64 (· ≤ ·) := ⟨fun _ _ _ => UInt64.le_trans⟩

theorem sorted_eq_of_perm {v w : List UInt64} (h : v.Perm w) : sorted v = sorted w :=
  List.Perm.eq_of_pairwise' (List.pairwise_insertionSort _ _) (List.pairwise_insertionSort _ _)
    ((List.perm_insertionSort _ v).trans (h.trans (List.perm_insertionSort _ w).symm))

theorem median_eq_of_perm {v w : List UInt64} (h : v.Perm w) : median v = median w := by
  have hnil : v = [] ↔ w = [] := by rw [← List.length_eq_zero_iff, h.length_eq, List.length_eq_zero_iff]
  simp only [median, hnil, h.length_eq, sorted_eq_of_perm h]

theorem getMid_le {a b t : UInt64} (ha : a ≤ t) (hb : b ≤ t) : getMid a b ≤ t := by
  rw [UInt64.le_iff_toNat_le] at ha hb ⊢
  have hlt := t.toNat_lt
  have htwo : (2 : UInt64).toNat = 2 := rfl
  simp only [getMid, UInt64.toNat_add, UInt64.toNat_div, UInt64.toNat_sub, UInt64.toNat_mul, htwo]
  omega

theorem median_le {v : List UInt64} {t : UInt64} (h : ∀ x ∈ v, x ≤ t) : median v ≤ t := by
  have hget : ∀ i, (sorted v).getD i 0 ≤ t := by
    intro i
    rw [List.getD_eq_getElem?_getD]
    cases hi : (sorted v)[i]? with
    | none => exact UInt64.zero_le
    | some x => exact h x ((List.perm_insertionSort _ v).mem_iff.mp (List.mem_of_getElem? hi))
  rw [median]
  split_ifs
  · exact UInt64.zero_le
  · exact hget _
  · exact getMid_le (hget _) (hget _)

theorem checkMainMedian_eq {db : List DbBlock} {alt : List UInt64} (h : SameTimestamps alt (mainTimestamps db))
    (b : Block) : checkTimestampMedian alt b = checkMainMedian db b := by
  rw [checkMainMedian]
  cases hmain : mainTimestamps db with
  | none =>
    rw [hmain] at h
    rw [SameTimestamps] at h
    subst h
    rfl
  | some main =>
    rw [hmain] at h
    exact congrArg (fun m => !decide (b.timestamp < m)) (median_eq_of_perm h)

section

variable {db : List DbBlock} {forkHeight : ℕ} {altChain : List BlockExtendedInfo}

theorem length_asMainChain (hfork : forkHeight < db.length) :
    (asMainChain db forkHeight altChain).length = forkHeight + 1 + altChain.length := by
  rw [asMainChain, List.length_append, List.length_take, List.length_map, Nat.min_eq_left hfork]

theorem length_altTimestamps (hfork : forkHeight < db.length) :
    (altTimestamps db forkHeight altChain).length =
      altChain.length + min forkHeight (blockchainTimestampCheckWindow - altChain.length) := by
  simp only [altTimestamps, completeTimestampsVector, List.length_reverse, List.length_map]
  split_ifs with hlong hheight hneed
  · rw [List.length_reverse, List.length_map, Nat.sub_eq_zero_of_le hlong]
    simp
  · simp [hfork] at hheight
  · simp only [List.length_append, List.length_reverse, List.length_map, List.length_drop, List.length_take]
    omega
  · simp only [List.length_append, List.length_reverse, List.length_map, List.length_drop, List.length_take]
    omega

theorem drop_asMainChain (hfork : forkHeight < db.length) {n : ℕ} (hn : n ≤ forkHeight + 1) :
    ((asMainChain db forkHeight altChain).drop n).map timestamp =
      ((db.take (forkHeight + 1)).drop n).map timestamp ++ altChain.map fun bei => bei.bl.timestamp := by
  have hlen : n ≤ (db.take (forkHeight + 1)).length := by
    rw [List.length_take, Nat.min_eq_left hfork]
    exact hn
  rw [asMainChain, List.drop_append_of_le_length hlen, List.map_append, List.map_map]
  rfl

theorem altTimestamps_perm (hfork : forkHeight < db.length)
    (hlong : blockchainTimestampCheckWindow ≤ forkHeight + altChain.length)
    (hshort : altChain.length ≤ blockchainTimestampCheckWindow) :
    (altTimestamps db forkHeight altChain).Perm
      (((asMainChain db forkHeight altChain).drop
        (forkHeight + 1 + altChain.length - blockchainTimestampCheckWindow)).map timestamp) := by
  rw [drop_asMainChain hfork (by omega), altTimestamps, completeTimestampsVector, List.length_reverse, List.length_map]
  rcases Nat.eq_or_lt_of_le hshort with heq | hlt
  · have hdrop : (db.take (forkHeight + 1)).drop (forkHeight + 1 + altChain.length - blockchainTimestampCheckWindow) = [] := by
      apply List.drop_of_length_le
      rw [List.length_take]
      omega
    rw [if_pos (Nat.le_of_eq heq.symm), hdrop, List.map_nil, List.nil_append]
    exact List.reverse_perm _
  · have hstop : (if forkHeight > blockchainTimestampCheckWindow - altChain.length then
        forkHeight - (blockchainTimestampCheckWindow - altChain.length) else 0) + 1 =
        forkHeight + 1 + altChain.length - blockchainTimestampCheckWindow := by
      split_ifs <;> omega
    rw [if_neg (Nat.not_le_of_lt hlt), if_neg (by simpa using hfork)]
    dsimp only
    rw [hstop]
    exact (List.Perm.append (List.reverse_perm _) (List.reverse_perm _)).trans List.perm_append_comm

end

theorem altTimestamps_same_iff (db : List DbBlock) (forkHeight : ℕ) (hfork : forkHeight < db.length)
    (altChain : List BlockExtendedInfo) :
    (SameTimestamps (altTimestamps db forkHeight altChain) (mainTimestamps (asMainChain db forkHeight altChain)) ∧
        ∀ b, checkTimestampMedian (altTimestamps db forkHeight altChain) b =
          checkMainMedian (asMainChain db forkHeight altChain) b) ↔
      blockchainTimestampCheckWindow ≤ forkHeight + altChain.length ∧
          altChain.length ≤ blockchainTimestampCheckWindow ∨
        forkHeight = 0 ∧ altChain = [] := by
  have halt : (altTimestamps db forkHeight altChain).length = _ := length_altTimestamps hfork
  have hmain : (asMainChain db forkHeight altChain).length = _ := length_asMainChain hfork
  have hsame : SameTimestamps (altTimestamps db forkHeight altChain)
      (mainTimestamps (asMainChain db forkHeight altChain)) ↔
      blockchainTimestampCheckWindow ≤ forkHeight + altChain.length ∧
          altChain.length ≤ blockchainTimestampCheckWindow ∨
        forkHeight = 0 ∧ altChain = [] := by
    rw [mainTimestamps, hmain, ← List.length_eq_zero_iff]
    split_ifs with hshort
    · rw [SameTimestamps, ← List.length_eq_zero_iff, halt]
      omega
    · constructor
      · intro h
        have hlen := h.length_eq
        rw [halt, List.length_map, List.length_drop, hmain] at hlen
        omega
      · rintro (⟨hlong, hle⟩ | ⟨hzero, hnil⟩)
        · exact altTimestamps_perm hfork hlong hle
        · rw [hzero, hnil] at hshort
          exact absurd (by decide) hshort
  rw [← hsame]
  exact ⟨And.left, fun h => ⟨h, checkMainMedian_eq h⟩⟩

def timedBlock (time : UInt64) : Block :=
  ⟨⟨16, 16, time, nullHash, 0⟩, ⟨⟨2, 0, [], [], []⟩, [], default, false⟩, []⟩

def timedChain (times : List UInt64) : List DbBlock := times.map fun time => ⟨timedBlock time, 0⟩

theorem altTimestamps_same_iff_sample :
    ¬ (SameTimestamps (altTimestamps (timedChain [0, 100, 200]) 1 [])
        (mainTimestamps (asMainChain (timedChain [0, 100, 200]) 1 [])) ∧
      ∀ b, checkTimestampMedian (altTimestamps (timedChain [0, 100, 200]) 1 []) b =
        checkMainMedian (asMainChain (timedChain [0, 100, 200]) 1 []) b) := by
  rw [altTimestamps_same_iff (timedChain [0, 100, 200]) 1 (by decide) []]
  decide

theorem altTimestamps_refuses :
    checkTimestampMedian (altTimestamps (timedChain [0, 100, 200]) 1 []) (timedBlock 50) = false ∧
      checkMainMedian (asMainChain (timedChain [0, 100, 200]) 1 []) (timedBlock 50) = true := by
  decide

end Velkavo.Core
