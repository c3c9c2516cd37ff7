import Velkavo.Core.Longhash202612
import Mathlib.Data.List.Find

/-! How two nodes find the last block they have in common. -/

namespace Velkavo.Core

open Cryptonote

def shortHistoryHeights (sz : ℕ) : ℕ → ℕ → ℕ → ℕ → List ℕ
  | 0, _, _, _ => []
  | fuel + 1, i, currentMultiplier, currentBackOffset =>
    if currentBackOffset < sz then
      (sz - currentBackOffset) ::
        if i < 10 then shortHistoryHeights sz fuel (i + 1) currentMultiplier (currentBackOffset + 1)
        else shortHistoryHeights sz fuel (i + 1) (currentMultiplier * 2) (currentBackOffset + currentMultiplier * 2)
    else []

namespace Blockchain

variable (c : HashFunctions) (s : Blockchain)

def getShortChainHistory : List Hash :=
  if s.db.length = 0 then []
  else
    let heights := shortHistoryHeights s.db.length s.db.length 0 1 1
    let genesisIncluded := heights.any fun height => height = 0
    heights.map (s.getBlockIdByHeight c) ++ if genesisIncluded then [] else [s.getBlockIdByHeight c 0]

def findBlockchainSupplement (qblockIds : List Hash) : Option ℕ :=
  match qblockIds.getLast? with
  | none => none
  | some last =>
    if last ≠ s.getBlockIdByHeight c 0 then none
    else (qblockIds.find? fun id => s.blockExists c id).map (s.getBlockHeightOf c)

end Blockchain

structure HistoryOffset (above i currentMultiplier currentBackOffset : ℕ) : Prop where
  pos : 0 < currentBackOffset
  multiplier : 0 < currentMultiplier
  bound : currentBackOffset ≤ 11 + 2 * above
  small : i < 10 ∨ currentBackOffset = 9 + 2 * currentMultiplier
  early : i < 10 → currentBackOffset = i + 1 ∧ currentMultiplier = 1

variable {sz f i currentMultiplier currentBackOffset : ℕ}

theorem HistoryOffset.start : HistoryOffset (sz - f) 0 1 1 := 
  ⟨by omega, by omega, by omega, .inl (by omega), fun _ => ⟨rfl, rfl⟩⟩

theorem HistoryOffset.next (h : HistoryOffset (sz - f) i currentMultiplier currentBackOffset) (hi : i < 10) :
    HistoryOffset (sz - f) (i + 1) currentMultiplier (currentBackOffset + 1) := by
  obtain ⟨hoffset, hmultiplier⟩ := h.early hi
  refine ⟨by omega, by omega, by omega, ?_, fun _ => by omega⟩
  by_cases hlast : i + 1 < 10
  · exact .inl hlast
  · exact .inr (by omega)

theorem HistoryOffset.double (h : HistoryOffset (sz - f) i currentMultiplier currentBackOffset)
    (hle : currentBackOffset ≤ sz - f) (hi : ¬i < 10) :
    HistoryOffset (sz - f) (i + 1) (currentMultiplier * 2) (currentBackOffset + currentMultiplier * 2) := by
  have hoffset := h.small.resolve_left hi
  have hmultiplier := h.multiplier
  exact ⟨by omega, by omega, by omega, .inr (by omega), fun hlt => absurd hlt (by omega)⟩

theorem find?_shortHistoryHeights (hf : 0 < f) {fuel : ℕ} (hfuel : sz < fuel + currentBackOffset)
    (h : HistoryOffset (sz - f) i currentMultiplier currentBackOffset) :
    ∃ start, (shortHistoryHeights sz fuel i currentMultiplier currentBackOffset ++ [0]).find? (fun height => height < f) =
      some start ∧ (start = 0 ∨ sz - 1 - start ≤ 10 + 2 * (sz - f)) := by
  have hgenesis : ∃ start, ([0] : List ℕ).find? (fun height => height < f) = some start ∧
      (start = 0 ∨ sz - 1 - start ≤ 10 + 2 * (sz - f)) :=
    ⟨0, List.find?_cons_of_pos (decide_eq_true hf), .inl rfl⟩
  induction fuel generalizing i currentMultiplier currentBackOffset with
  | zero => exact hgenesis
  | succ fuel ih =>
    rw [shortHistoryHeights]
    by_cases hlt : currentBackOffset < sz
    · rw [if_pos hlt, List.cons_append]
      by_cases hbelow : sz - currentBackOffset < f
      · have hbound := h.bound
        exact ⟨_, List.find?_cons_of_pos (decide_eq_true hbelow), .inr (by omega)⟩
      · rw [List.find?_cons_of_neg (by simpa using hbelow)]
        have hmultiplier := h.multiplier
        split_ifs with hi
        · exact ih (by omega) (h.next hi)
        · exact ih (by omega) (h.double (by omega) hi)
    · rw [if_neg hlt]
      exact hgenesis

theorem lt_of_mem_shortHistoryHeights {fuel height : ℕ} (hpos : 0 < currentBackOffset)
    (h : height ∈ shortHistoryHeights sz fuel i currentMultiplier currentBackOffset) : 0 < height ∧ height < sz := by
  induction fuel generalizing i currentMultiplier currentBackOffset with
  | zero => cases h
  | succ fuel ih =>
    rw [shortHistoryHeights] at h
    split_ifs at h with hlt hi
    · rcases List.mem_cons.mp h with rfl | h
      · omega
      · exact ih (by omega) h
    · rcases List.mem_cons.mp h with rfl | h
      · omega
      · exact ih (by omega) h
    · cases h

namespace Blockchain

variable {c : HashFunctions} {a b : Blockchain}

theorem getShortChainHistory_eq (hlen : 0 < a.db.length) :
    a.getShortChainHistory c =
      (shortHistoryHeights a.db.length a.db.length 0 1 1 ++ [0]).map (a.getBlockIdByHeight c) := by
  have hgenesis : (shortHistoryHeights a.db.length a.db.length 0 1 1).any (fun height => height = 0) = false := by
    rw [List.any_eq_false]
    intro height hheight
    have := (lt_of_mem_shortHistoryHeights Nat.one_pos hheight).1
    simpa using by omega
  rw [getShortChainHistory, if_neg (by omega)]
  dsimp only
  rw [hgenesis, if_neg Bool.false_ne_true, List.map_append]
  rfl

theorem getElem?_ids {i : ℕ} (hi : i < a.db.length) : (a.ids c)[i]? = some (a.getBlockIdByHeight c i) := by
  have hlt : i < (a.ids c).length := by
    rw [ids, List.length_map]
    exact hi
  rw [getBlockIdByHeight, List.getElem?_eq_getElem hlt, Option.getD_some]

structure ForksAt (c : HashFunctions) (a b : Blockchain) (f : ℕ) : Prop where
  pos : 0 < f
  le : f ≤ a.db.length
  common : (a.ids c).take f = (b.ids c).take f
  above : ∀ i, f ≤ i → i < a.db.length → a.getBlockIdByHeight c i ∉ b.ids c
  nodup : (b.ids c).Nodup

theorem ForksAt.getElem?_eq (h : ForksAt c a b f) {i : ℕ} (hi : i < f) : (a.ids c)[i]? = (b.ids c)[i]? := by
  rw [← List.getElem?_take_of_lt hi, h.common, List.getElem?_take_of_lt hi]

theorem ForksAt.blockExists_iff (h : ForksAt c a b f) {i : ℕ} (hi : i < a.db.length) :
    b.blockExists c (a.getBlockIdByHeight c i) = true ↔ i < f := by
  rw [blockExists, decide_eq_true_eq]
  constructor
  · intro hmem
    by_contra hle
    exact h.above i (by omega) hi hmem
  · intro hlt
    have hget := getElem?_ids (c := c) hi
    rw [h.getElem?_eq hlt] at hget
    exact List.mem_of_getElem? hget

theorem ForksAt.getBlockHeightOf_eq (h : ForksAt c a b f) {i : ℕ} (hi : i < f) :
    b.getBlockHeightOf c (a.getBlockIdByHeight c i) = i := by
  have hget := getElem?_ids (c := c) (hi.trans_le h.le)
  rw [h.getElem?_eq hi] at hget
  obtain ⟨hlt, hid⟩ := List.getElem?_eq_some_iff.mp hget
  rw [getBlockHeightOf, ← hid, h.nodup.idxOf_getElem]

theorem ForksAt.findBlockchainSupplement (h : ForksAt c a b f) :
    ∃ start, b.findBlockchainSupplement c (a.getShortChainHistory c) = some start ∧ start < f ∧
      (start = 0 ∨ a.db.length - 1 - start ≤ 10 + 2 * (a.db.length - f)) := by
  have hlen : 0 < a.db.length := h.pos.trans_le h.le
  have hoffset : HistoryOffset (a.db.length - f) 0 1 1 := HistoryOffset.start (f := f)
  obtain ⟨start, hfind, hbound⟩ := find?_shortHistoryHeights h.pos (Nat.lt_succ_self a.db.length) hoffset
  have hheights : ∀ i ∈ shortHistoryHeights a.db.length a.db.length 0 1 1 ++ [0], i < a.db.length := by
    intro i hi
    rcases List.mem_append.mp hi with hi | hi
    · exact (lt_of_mem_shortHistoryHeights Nat.one_pos hi).2
    · rw [List.mem_singleton.mp hi]
      exact hlen
  have hstart : start < f := by simpa using List.find?_some hfind
  have hgenesis : a.getBlockIdByHeight c 0 = b.getBlockIdByHeight c 0 := by
    rw [getBlockIdByHeight, h.getElem?_eq h.pos]
    rfl
  refine ⟨start, ?_, hstart, hbound⟩
  rw [Blockchain.findBlockchainSupplement, getShortChainHistory_eq hlen, List.map_append, List.map_singleton,
    List.getLast?_concat]
  dsimp only
  rw [hgenesis, if_neg (not_not.mpr rfl), ← hgenesis, ← List.map_singleton, ← List.map_append, List.find?_map]
  have hsame : (shortHistoryHeights a.db.length a.db.length 0 1 1 ++ [0]).find?
      ((fun id => b.blockExists c id) ∘ a.getBlockIdByHeight c) = some start := by
    rw [← hfind]
    refine List.find?_congr fun i hi => ?_
    rw [Function.comp_apply, Bool.eq_iff_iff, h.blockExists_iff (hheights i hi), decide_eq_true_eq]
  rw [hsame, Option.map_some, Option.map_some, h.getBlockHeightOf_eq hstart]

end Blockchain

theorem forksAt_of_branch (n : Network) (a b : Blockchain) (f : ℕ) (ha : n.Branch (a.db.map DbBlock.bl))
    (hb : n.Branch (b.db.map DbBlock.bl)) (hle : f ≤ a.db.length)
    (hcommon : (a.ids n.toHashFunctions).take f = (b.ids n.toHashFunctions).take f)
    (hfork : f = a.db.length ∨ (a.ids n.toHashFunctions)[f]? ≠ (b.ids n.toHashFunctions)[f]?) :
    Blockchain.ForksAt n.toHashFunctions a b f := by
  have hroot : ∀ {s : Blockchain}, n.Branch (s.db.map DbBlock.bl) →
      0 < s.db.length ∧ (s.ids n.toHashFunctions)[0]? = some (n.id n.genesis) := by
    intro s hs
    refine ⟨by simpa using List.length_pos_of_ne_nil hs.ne_nil, ?_⟩
    rw [Blockchain.ids_eq, List.getElem?_map, ← List.head?_eq_getElem?, hs.head]
    rfl
  obtain ⟨hlen, hgenesis⟩ := hroot ha
  refine ⟨Nat.pos_of_ne_zero fun hzero => ?_, hle, hcommon, fun i hi hlt hmem => ?_, ?_⟩
  · subst hzero
    rcases hfork with hzero | hne
    · omega
    · exact hne (hgenesis.trans (hroot hb).2.symm)
  · -- a common block above the fork would make the chains agree at the fork
    obtain ⟨j, hj⟩ := List.getElem?_of_mem hmem
    have hget := Blockchain.getElem?_ids (c := n.toHashFunctions) hlt
    rw [Blockchain.ids_eq] at hget hj
    obtain ⟨-, htake⟩ := ha.take_eq_of_getElem n.binding hb hget hj
    rw [← Blockchain.ids_eq, ← Blockchain.ids_eq] at htake
    refine hfork.resolve_left (by omega) ?_
    rw [← List.getElem?_take_of_lt (by omega : f < i + 1), htake, List.getElem?_take_of_lt (by omega)]
  · rw [Blockchain.ids_eq]
    exact hb.nodup n.binding

theorem findBlockchainSupplement_start (n : Network) (a b : Blockchain) (f : ℕ) (ha : n.Branch (a.db.map DbBlock.bl))
    (hb : n.Branch (b.db.map DbBlock.bl)) (hle : f ≤ a.db.length)
    (hcommon : (a.ids n.toHashFunctions).take f = (b.ids n.toHashFunctions).take f)
    (hfork : f = a.db.length ∨ (a.ids n.toHashFunctions)[f]? ≠ (b.ids n.toHashFunctions)[f]?) :
    ∃ start, b.findBlockchainSupplement n.toHashFunctions (a.getShortChainHistory n.toHashFunctions) = some start ∧
      start < a.db.length ∧ (a.ids n.toHashFunctions)[start]? = (b.ids n.toHashFunctions)[start]? ∧
      (start = 0 ∨ a.db.length - 1 - start ≤ 10 + 2 * (a.db.length - f)) := by
  have h := forksAt_of_branch n a b f ha hb hle hcommon hfork
  obtain ⟨start, hfind, hlt, hbound⟩ := h.findBlockchainSupplement
  exact ⟨start, hfind, hlt.trans_le hle, h.getElem?_eq hlt, hbound⟩

open Longhash202612 in
theorem findBlockchainSupplement_start_prefix :
    ∃ start, (climbed 5).findBlockchainSupplement hashes ((climbed 30).getShortChainHistory hashes) = some start ∧
      start < 30 ∧ ((climbed 30).ids hashes)[start]? = ((climbed 5).ids hashes)[start]? ∧
      (start = 0 ∨ 30 - 1 - start ≤ 10 + 2 * (30 - 5)) :=
  findBlockchainSupplement_start network (climbed 30) (climbed 5) 5 (branch_climbed (by decide))
    (branch_climbed (by decide)) (by decide) (by decide +kernel) (.inr (by decide +kernel))

end Velkavo.Core
