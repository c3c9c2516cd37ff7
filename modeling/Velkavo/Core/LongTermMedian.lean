import Velkavo.Core.AbortedBatch
import Velkavo.Core.BlockWeight
import Velkavo.Effects.Runs
import Velkavo.Epee.RollingMedianRun

/-! The median of the long term block weights, which is kept from one call to the next. -/

namespace Velkavo.Core

open Cryptonote HashChain Epee

def longTermBlockWeightWindowSize : ℕ := 100000

structure WeighedBlock where
  bl : Block
  info : BlockInfo

def WeighedBlock.longTermWeight (e : WeighedBlock) : UInt64 := e.info.longTermBlockWeight

structure LongTermCache where
  tipHash : Hash
  rollingMedian : RollingMedian UInt64

structure MedianCall where
  infos : List BlockInfo
  value : UInt64

structure WeighedChain where
  db : List WeighedBlock
  cache : LongTermCache
  limits : WeightLimits
  calls : List MedianCall

inductive WeightOp where
  | addBlock (b : Block) (coins : UInt64) (passes stores : Bool)
  | popBlock
  | updateLimit (version : UInt8)
  | restart (data : ℕ → UInt64) (pos : ℕ → ℤ) (heap : ℤ → ℕ)

section

variable (c : HashFunctions)

def blockHashFromHeight (db : List WeighedBlock) (height : ℕ) : Hash :=
  (db[height]?.map fun e => getBlockHash c e.bl).getD nullHash

def blockLongTermWeight (db : List WeighedBlock) (height : ℕ) : UInt64 :=
  (db[height]?.map WeighedBlock.longTermWeight).getD 0

def getLongTermBlockWeights (db : List WeighedBlock) (startHeight count : ℕ) : Option (List UInt64) :=
  if startHeight ≥ db.length then none
  else some (((db.drop startHeight).take count).map WeighedBlock.longTermWeight)

namespace LongTermCache

def initial (window : ℕ) (data : ℕ → UInt64) (pos : ℕ → ℤ) (heap : ℤ → ℕ) : LongTermCache :=
  ⟨nullHash, .new window data pos heap⟩

def advance (k : LongTermCache) (tipHash : Hash) (weight : UInt64) : LongTermCache :=
  ⟨tipHash, k.rollingMedian.insert weight⟩

def rebuild (k : LongTermCache) (tipHash : Hash) (weights : List UInt64) : LongTermCache :=
  ⟨tipHash, weights.foldl RollingMedian.insertIn k.rollingMedian.clear⟩

def getLongTermBlockWeightMedian (k : LongTermCache) (db : List WeighedBlock) (startHeight count : ℕ) :
    Option (UInt64 × LongTermCache) :=
  if count = 0 then none
  else
    let tipHeight := startHeight + count - 1
    let tipHash := if tipHeight < db.length then blockHashFromHeight c db tipHeight else nullHash
    let rmsize := k.rollingMedian.size
    if tipHeight < db.length ∧ count = rmsize ∧ tipHash = k.tipHash then some (k.rollingMedian.median, k)
    else if (tipHeight > 0 ∧ tipHeight < db.length) ∧
        (count = rmsize ∨ count = rmsize + 1 ∧ rmsize < longTermBlockWeightWindowSize) ∧
        blockHashFromHeight c db (tipHeight - 1) = k.tipHash then
      let k := k.advance tipHash (blockLongTermWeight db tipHeight)
      some (k.rollingMedian.median, k)
    else
      (getLongTermBlockWeights db startHeight count).map fun weights =>
        ((k.rebuild tipHash weights).rollingMedian.median, k.rebuild tipHash weights)

end LongTermCache

namespace WeighedChain

variable (window : ℕ) (weightOf : Hash → UInt64) (version : List Hash → UInt8) (s : WeighedChain)

def infos (db : List WeighedBlock) : List BlockInfo := db.map WeighedBlock.info

def ids (db : List WeighedBlock) : List Hash := db.map fun e => getBlockHash c e.bl

def longTermMedian : Option (UInt64 × WeighedChain) :=
  let nblocks := min window s.db.length
  (s.cache.getLongTermBlockWeightMedian c s.db (s.db.length - nblocks) nblocks).map fun r =>
    (r.1, { s with cache := r.2, calls := s.calls ++ [⟨infos s.db, r.1⟩] })

def getNextLongTermBlockWeight (hfVersion : UInt8) (blockWeight : UInt64) : Option (UInt64 × WeighedChain) :=
  if hfVersion < hfVersionLongTermBlockWeight then some (blockWeight, s)
  else (s.longTermMedian c window).map fun r =>
    let longTerm := max fullRewardZoneV5 r.1
    (if hfVersion ≥ hfVersion2021Scaling then min (max blockWeight (longTerm * 10 / 17)) (longTerm + longTerm * 7 / 10)
      else min blockWeight (longTerm + longTerm * 2 / 5), r.2)

def updateNextCumulativeWeightLimit (hfVersion : UInt8) : Option WeighedChain :=
  let shortTerm := median (getLastNBlocksWeights (infos s.db) cryptonoteRewardBlocksWindow)
  if hfVersion < hfVersionLongTermBlockWeight then
    some { s with limits := s.limits.withMedian hfVersion shortTerm }
  else (s.longTermMedian c window).map fun r =>
    let longTerm := max fullRewardZoneV5 r.1
    { r.2 with
      limits := WeightLimits.withMedian { r.2.limits with longTermEffectiveMedianBlockWeight := longTerm } hfVersion
        (effectiveMedian hfVersion longTerm shortTerm) }

def addBlock (b : Block) (coins : UInt64) (passes stores : Bool) : WeighedChain :=
  if b.prevId = (tip (getBlockHash c) (s.db.map WeighedBlock.bl)).getD nullHash ∧ passes = true then
    match s.getNextLongTermBlockWeight c window (version (ids c s.db)) (weightOf (getBlockHash c b)) with
    | none => s
    | some (longTerm, s) =>
      if stores then
        let entry : WeighedBlock := ⟨b, ⟨coins, weightOf (getBlockHash c b), longTerm⟩⟩
        let s : WeighedChain := { s with db := s.db ++ [entry] }
        (s.updateNextCumulativeWeightLimit c window (version (ids c s.db))).getD s
      else s
  else s

def step : WeightOp → WeighedChain
  | .addBlock b coins passes stores => s.addBlock c window weightOf version b coins passes stores
  | .popBlock => if 1 < s.db.length then { s with db := s.db.dropLast } else s
  | .updateLimit hfVersion => (s.updateNextCumulativeWeightLimit c window hfVersion).getD s
  | .restart data pos heap => { s with cache := .initial window data pos heap, limits := .initial }

end WeighedChain

end

section

variable (n : Network) (window : ℕ) (weightOf : Hash → UInt64) (version : List Hash → UInt8)

def LongTermWeighed (db : List WeighedBlock) : Prop :=
  ∀ below e rest, db = below ++ e :: rest →
    getNextLongTermBlockWeight window (version (WeighedChain.ids n.toHashFunctions below)) (WeighedChain.infos below)
      (weightOf (n.id e.bl)) = some e.longTermWeight

structure StoredWeights (db : List WeighedBlock) : Prop where
  branch : n.Branch (db.map WeighedBlock.bl)
  weighed : LongTermWeighed n window weightOf version db

variable {n window weightOf version} {db l m : List WeighedBlock}

theorem map_longTermBlockWeight_infos :
    (WeighedChain.infos db).map BlockInfo.longTermBlockWeight = db.map WeighedBlock.longTermWeight := by
  rw [WeighedChain.infos, List.map_map]
  rfl

theorem length_infos : (WeighedChain.infos db).length = db.length := List.length_map _

theorem getLongTermBlockWeightMedian_infos {count : ℕ} :
    getLongTermBlockWeightMedian (WeighedChain.infos db) count =
      if count = 0 then none else some (median ((db.map WeighedBlock.longTermWeight).drop (db.length - count))) := by
  rw [getLongTermBlockWeightMedian, List.map_drop, map_longTermBlockWeight_infos, length_infos]

theorem getNextLongTermBlockWeight_congr (h : l.map WeighedBlock.longTermWeight = m.map WeighedBlock.longTermWeight)
    (v : UInt8) (w : UInt64) :
    getNextLongTermBlockWeight window v (WeighedChain.infos l) w =
      getNextLongTermBlockWeight window v (WeighedChain.infos m) w := by
  have hlen : l.length = m.length := by
    rw [← List.length_map WeighedBlock.longTermWeight, h, List.length_map]
  rw [getNextLongTermBlockWeight, getNextLongTermBlockWeight, longTermEffectiveMedian, longTermEffectiveMedian,
    length_infos, length_infos, getLongTermBlockWeightMedian_infos, getLongTermBlockWeightMedian_infos, h, hlen]

theorem LongTermWeighed.left (h : LongTermWeighed n window weightOf version (l ++ m)) : LongTermWeighed n window weightOf version l :=
  fun below e rest heq => h below e (rest ++ m) (by rw [heq, List.append_assoc, List.cons_append])

theorem LongTermWeighed.concat (h : LongTermWeighed n window weightOf version l) {e : WeighedBlock}
    (he : getNextLongTermBlockWeight window (version (WeighedChain.ids n.toHashFunctions l)) (WeighedChain.infos l)
      (weightOf (n.id e.bl)) = some e.longTermWeight) : LongTermWeighed n window weightOf version (l ++ [e]) := by
  intro below x rest heq
  obtain rfl | ⟨rest, y, rfl⟩ := List.eq_nil_or_concat' rest
  · obtain ⟨rfl, hx⟩ := List.append_inj' heq rfl
    rw [← List.singleton_inj.mp hx]
    exact he
  · have hsplit : l ++ [e] = (below ++ x :: rest) ++ [y] := by rw [heq, List.append_assoc, List.cons_append]
    exact h below x rest (List.append_inj' hsplit rfl).1

theorem StoredWeights.left (h : StoredWeights n window weightOf version (l ++ m)) (hl : l ≠ []) :
    StoredWeights n window weightOf version l := by
  have hbranch := h.branch
  rw [List.map_append] at hbranch
  exact ⟨hbranch.left (by rwa [ne_eq, List.map_eq_nil_iff]), h.weighed.left⟩

theorem LongTermWeighed.longTermWeights_eq (hl : LongTermWeighed n window weightOf version l) (hm : LongTermWeighed n window weightOf version m)
    (h : WeighedChain.ids n.toHashFunctions l = WeighedChain.ids n.toHashFunctions m) :
    l.map WeighedBlock.longTermWeight = m.map WeighedBlock.longTermWeight := by
  induction l using List.reverseRecOn generalizing m with
  | nil =>
    rw [WeighedChain.ids, List.map_nil, eq_comm, WeighedChain.ids, List.map_eq_nil_iff] at h
    rw [h]
  | append_singleton l e ih =>
    obtain rfl | ⟨m, e', rfl⟩ := List.eq_nil_or_concat' m
    · simp [WeighedChain.ids] at h
    · rw [WeighedChain.ids, WeighedChain.ids, List.map_append, List.map_append] at h
      obtain ⟨hids, hid⟩ := List.append_inj' h rfl
      have hbelow := ih hl.left hm.left hids
      have hlast := hl l e [] rfl
      have hlast' := hm m e' [] rfl
      have hid : n.id e.bl = n.id e'.bl := List.singleton_inj.mp hid
      rw [WeighedChain.ids, hids, ← WeighedChain.ids, hid, getNextLongTermBlockWeight_congr hbelow, hlast'] at hlast
      rw [List.map_append, List.map_append, hbelow, List.map_singleton, List.map_singleton, Option.some_inj.mp hlast]

theorem StoredWeights.longTermWeights_eq (hl : StoredWeights n window weightOf version l)
    (hm : StoredWeights n window weightOf version m)
    (h : tip n.id (l.map WeighedBlock.bl) = tip n.id (m.map WeighedBlock.bl)) :
    l.map WeighedBlock.longTermWeight = m.map WeighedBlock.longTermWeight := by
  have hids := hl.branch.map_ident_eq n.binding hm.branch h
  rw [List.map_map, List.map_map] at hids
  exact hl.weighed.longTermWeights_eq hm.weighed hids

end

section

variable (n : Network) (window : ℕ) (weightOf : Hash → UInt64) (version : List Hash → UInt8)

structure Remembered (k : LongTermCache) : Prop where
  valid : k.rollingMedian.Valid
  capacity : k.rollingMedian.n = window
  holds : k.tipHash = nullHash ∨ ∃ chain, StoredWeights n window weightOf version chain ∧
    tip n.id (chain.map WeighedBlock.bl) = some k.tipHash ∧
    k.rollingMedian.queue = RollingMedian.recent window (chain.map WeighedBlock.longTermWeight)

variable {n window weightOf version} {db : List WeighedBlock} {k : LongTermCache}

theorem remembered_initial (hw : 0 < window) (data : ℕ → UInt64) (pos : ℕ → ℤ) (heap : ℤ → ℕ) :
    Remembered n window weightOf version (.initial window data pos heap) := by
  obtain ⟨hvalid, hnum, -⟩ := RollingMedian.new_valid hw data pos heap
  exact ⟨hvalid, hnum, .inl rfl⟩

theorem Remembered.queue_eq (h : Remembered n window weightOf version k) (hdb : StoredWeights n window weightOf version db)
    (htip : tip n.id (db.map WeighedBlock.bl) = some k.tipHash) :
    k.rollingMedian.queue = RollingMedian.recent window (db.map WeighedBlock.longTermWeight) := by
  rcases h.holds with hnull | ⟨chain, hchain, htip', hqueue⟩
  · obtain ⟨b, hlast, hid⟩ := tip_eq_some_iff.mp htip
    exact absurd (hid.trans hnull) (n.ne_null b (hdb.branch.mem b (List.mem_of_getLast? hlast)))
  · rw [hqueue, hchain.longTermWeights_eq hdb (by rw [htip, htip'])]

theorem Remembered.advance (h : Remembered n window weightOf version k) {e : WeighedBlock}
    (hdb : StoredWeights n window weightOf version (db ++ [e])) (hne : db ≠ [])
    (htip : tip n.id (db.map WeighedBlock.bl) = some k.tipHash) :
    Remembered n window weightOf version (k.advance (n.id e.bl) e.longTermWeight) ∧
      (k.advance (n.id e.bl) e.longTermWeight).rollingMedian.queue =
        RollingMedian.recent window ((db ++ [e]).map WeighedBlock.longTermWeight) := by
  have hbelow := h.queue_eq (hdb.left hne) htip
  obtain ⟨hvalid, hnum, hqueue⟩ := RollingMedian.insert_recent h.valid h.capacity hbelow e.longTermWeight
  have hnew : (k.advance (n.id e.bl) e.longTermWeight).rollingMedian.queue =
      RollingMedian.recent window ((db ++ [e]).map WeighedBlock.longTermWeight) := by
    rw [List.map_append, List.map_singleton]
    exact hqueue
  refine ⟨⟨hvalid, hnum, .inr ⟨db ++ [e], hdb, ?_, hnew⟩⟩, hnew⟩
  rw [List.map_append, List.map_singleton, tip_concat]
  rfl

theorem recent_recent {α : Type} (w : ℕ) (l : List α) :
    RollingMedian.recent w (l.drop (l.length - min w l.length)) = RollingMedian.recent w l := by
  rw [RollingMedian.recent, RollingMedian.recent, List.length_drop, List.drop_drop]
  congr 1
  omega

theorem Remembered.rebuild (h : Remembered n window weightOf version k) (hdb : StoredWeights n window weightOf version db)
    {tipHash : Hash} (htip : tip n.id (db.map WeighedBlock.bl) = some tipHash) :
    Remembered n window weightOf version
        (k.rebuild tipHash ((db.drop (db.length - min window db.length)).map WeighedBlock.longTermWeight)) ∧
      (k.rebuild tipHash
          ((db.drop (db.length - min window db.length)).map WeighedBlock.longTermWeight)).rollingMedian.queue =
        RollingMedian.recent window (db.map WeighedBlock.longTermWeight) := by
  obtain ⟨hvalid, hnum, hqueue⟩ := RollingMedian.clear_valid h.valid.shape.n_pos
  have hempty : k.rollingMedian.clear.queue = RollingMedian.recent window [] := hqueue.trans List.drop_nil.symm
  obtain ⟨hvalid', hnum', hqueue'⟩ := RollingMedian.foldl_insert_recent hvalid (hnum.trans h.capacity) hempty
    ((db.drop (db.length - min window db.length)).map WeighedBlock.longTermWeight)
  have hlast := recent_recent window (db.map WeighedBlock.longTermWeight)
  rw [List.length_map, ← List.map_drop] at hlast
  rw [List.nil_append, hlast] at hqueue'
  exact ⟨⟨hvalid', hnum', .inr ⟨db, hdb, htip, hqueue'⟩⟩, hqueue'⟩

theorem Remembered.median_eq (h : Remembered n window weightOf version k) (hne : db ≠ [])
    (hqueue : k.rollingMedian.queue = RollingMedian.recent window (db.map WeighedBlock.longTermWeight)) :
    k.rollingMedian.median = median (RollingMedian.recent window (db.map WeighedBlock.longTermWeight)) := by
  have hw : 0 < window := h.capacity ▸ h.valid.shape.n_pos
  have hsz : k.rollingMedian.sz = min window db.length := by
    rw [← RollingMedian.length_queue, hqueue, RollingMedian.length_recent, List.length_map]
  have hlen := List.length_pos_iff.mpr hne
  rw [RollingMedian.median_eq h.valid (by omega), hqueue]

theorem Remembered.getLongTermBlockWeightMedian (h : Remembered n window weightOf version k)
    (hdb : StoredWeights n window weightOf version db) :
    ∃ k', k.getLongTermBlockWeightMedian n.toHashFunctions db (db.length - min window db.length) (min window db.length) =
        some (median (RollingMedian.recent window (db.map WeighedBlock.longTermWeight)), k') ∧
      Remembered n window weightOf version k' := by
  have hw : 0 < window := h.capacity ▸ h.valid.shape.n_pos
  have hnil : db ≠ [] := fun hnil => hdb.branch.ne_nil (by rw [hnil]; rfl)
  obtain ⟨below, e, hsplit⟩ := (List.eq_nil_or_concat' db).resolve_left hnil
  have hlen : db.length = below.length + 1 := by rw [hsplit, List.length_append]; rfl
  have htip : tip n.id (db.map WeighedBlock.bl) = some (n.id e.bl) := by
    rw [hsplit, List.map_append, List.map_singleton, tip_concat]
  have hlast : db[below.length]? = some e := by
    rw [hsplit, List.getElem?_append_right (Nat.le_refl _), Nat.sub_self]
    rfl
  have hheight : db.length - min window db.length + min window db.length - 1 = below.length := by omega
  have hhash : blockHashFromHeight n.toHashFunctions db below.length = n.id e.bl := by
    rw [blockHashFromHeight, hlast]
    rfl
  have hweight : blockLongTermWeight db below.length = e.longTermWeight := by
    rw [blockLongTermWeight, hlast]
    rfl
  rw [LongTermCache.getLongTermBlockWeightMedian, if_neg (by omega)]
  simp only [hheight, hhash, hweight, if_pos (show below.length < db.length by omega)]
  split_ifs with hcached hadvance
  · obtain ⟨-, -, hhash⟩ := hcached
    have hqueue := h.queue_eq hdb (by rw [htip, hhash])
    exact ⟨k, by rw [h.median_eq hnil hqueue], h⟩
  · obtain ⟨⟨hpos, -⟩, -, hold⟩ := hadvance
    obtain ⟨lower, x, hbelow⟩ := (List.eq_nil_or_concat' below).resolve_left (List.length_pos_iff.mp hpos)
    have holdTip : tip n.id (below.map WeighedBlock.bl) = some k.tipHash := by
      have hx : db[below.length - 1]? = some x := by
        rw [hsplit, List.getElem?_append_left (by omega), hbelow, List.length_append, List.length_singleton,
          Nat.add_sub_cancel, List.getElem?_append_right (Nat.le_refl _), Nat.sub_self]
        rfl
      rw [blockHashFromHeight, hx] at hold
      rw [hbelow, List.map_append, List.map_singleton, tip_concat, ← hold]
      rfl
    obtain ⟨hk, hqueue⟩ := h.advance (hsplit ▸ hdb) (List.length_pos_iff.mp hpos) holdTip
    rw [← hsplit] at hqueue
    exact ⟨_, by rw [hk.median_eq hnil hqueue], hk⟩
  · obtain ⟨hk, hqueue⟩ := h.rebuild hdb htip
    refine ⟨_, ?_, hk⟩
    rw [getLongTermBlockWeights, if_neg (by omega), List.take_of_length_le (by rw [List.length_drop]; omega),
      Option.map_some, hk.median_eq hnil hqueue]

end

section

def MedianCall.Fresh (window : ℕ) (call : MedianCall) : Prop :=
  call.value = median ((call.infos.drop (call.infos.length - min window call.infos.length)).map
    BlockInfo.longTermBlockWeight)

variable (n : Network) (window : ℕ) (weightOf : Hash → UInt64) (version : List Hash → UInt8)

structure WeightInv (s : WeighedChain) : Prop where
  stored : StoredWeights n window weightOf version s.db
  cache : 0 < window → Remembered n window weightOf version s.cache
  calls : ∀ call ∈ s.calls, call.Fresh window

variable {n window weightOf version} {s : WeighedChain}

theorem WeightInv.ne_nil (h : WeightInv n window weightOf version s) : s.db ≠ [] :=
  fun hnil => h.stored.branch.ne_nil (by rw [hnil]; rfl)

theorem WeightInv.longTermMedian (h : WeightInv n window weightOf version s) :
    (∃ m s', s.longTermMedian n.toHashFunctions window = some (m, s') ∧
        longTermEffectiveMedian window (WeighedChain.infos s.db) = some (max fullRewardZoneV5 m) ∧
        WeightInv n window weightOf version s' ∧ s'.db = s.db ∧ s'.limits = s.limits) ∨
      (s.longTermMedian n.toHashFunctions window = none ∧
        longTermEffectiveMedian window (WeighedChain.infos s.db) = none) := by
  rw [longTermEffectiveMedian, getLongTermBlockWeightMedian_infos, length_infos]
  obtain rfl | hw := Nat.eq_zero_or_pos window
  · refine .inr ⟨?_, by rw [Nat.zero_min]; rfl⟩
    rw [WeighedChain.longTermMedian, Nat.zero_min]
    rfl
  · have hlen := List.length_pos_iff.mpr h.ne_nil
    obtain ⟨k, hcall, hk⟩ := (h.cache hw).getLongTermBlockWeightMedian h.stored
    have hcached : s.longTermMedian n.toHashFunctions window =
        some (median (RollingMedian.recent window (s.db.map WeighedBlock.longTermWeight)),
          { s with
            cache := k
            calls := s.calls ++
              [⟨WeighedChain.infos s.db, median (RollingMedian.recent window (s.db.map WeighedBlock.longTermWeight))⟩] }) := by
      rw [WeighedChain.longTermMedian, hcall]
      rfl
    refine .inl ⟨_, _, hcached, ?_, ⟨h.stored, fun _ => hk, ?_⟩, rfl, rfl⟩
    · rw [if_neg (by omega), Option.map_some, RollingMedian.recent, List.length_map]
      congr 4
      omega
    · intro call hmem
      rcases List.mem_append.mp hmem with hold | hnew
      · exact h.calls call hold
      · rw [List.mem_singleton.mp hnew, MedianCall.Fresh]
        simp only [List.map_drop, map_longTermBlockWeight_infos, length_infos]
        rw [RollingMedian.recent, List.length_map]
        congr 2
        omega

theorem WeightInv.getNextLongTermBlockWeight (h : WeightInv n window weightOf version s) (v : UInt8) (w : UInt64) :
    (∃ longTerm s', s.getNextLongTermBlockWeight n.toHashFunctions window v w = some (longTerm, s') ∧
        Core.getNextLongTermBlockWeight window v (WeighedChain.infos s.db) w = some longTerm ∧
        WeightInv n window weightOf version s' ∧ s'.db = s.db) ∨
      (s.getNextLongTermBlockWeight n.toHashFunctions window v w = none) := by
  rw [WeighedChain.getNextLongTermBlockWeight, Core.getNextLongTermBlockWeight]
  by_cases hv : v < hfVersionLongTermBlockWeight
  · rw [if_pos hv, if_pos hv]
    exact .inl ⟨w, s, rfl, rfl, h, rfl⟩
  · rw [if_neg hv, if_neg hv]
    obtain ⟨m, s', hcall, hpure, hs', hdb, -⟩ | ⟨hcall, -⟩ := h.longTermMedian
    · rw [hcall, hpure]
      exact .inl ⟨_, s', rfl, rfl, hs', hdb⟩
    · rw [hcall]
      exact .inr rfl

theorem WeightInv.updateNextCumulativeWeightLimit (h : WeightInv n window weightOf version s) (v : UInt8) :
    (∃ s', s.updateNextCumulativeWeightLimit n.toHashFunctions window v = some s' ∧
        Core.updateNextCumulativeWeightLimit window v (WeighedChain.infos s.db) s.limits = some s'.limits ∧
        WeightInv n window weightOf version s' ∧ s'.db = s.db) ∨
      s.updateNextCumulativeWeightLimit n.toHashFunctions window v = none := by
  rw [WeighedChain.updateNextCumulativeWeightLimit, Core.updateNextCumulativeWeightLimit]
  by_cases hv : v < hfVersionLongTermBlockWeight
  · rw [if_pos hv, if_pos hv]
    exact .inl ⟨_, rfl, rfl, ⟨h.stored, h.cache, h.calls⟩, rfl⟩
  · rw [if_neg hv, if_neg hv]
    obtain ⟨m, s', hcall, hpure, hs', hdb, hlimits⟩ | ⟨hcall, -⟩ := h.longTermMedian
    · rw [hcall, hpure, ← hlimits]
      exact .inl ⟨_, rfl, rfl, ⟨hs'.stored, hs'.cache, hs'.calls⟩, hdb⟩
    · rw [hcall]
      exact .inr rfl

theorem WeightInv.getD_updateNextCumulativeWeightLimit (h : WeightInv n window weightOf version s) (v : UInt8) :
    WeightInv n window weightOf version ((s.updateNextCumulativeWeightLimit n.toHashFunctions window v).getD s) := by
  obtain ⟨s', hupdate, -, hs', -⟩ | hupdate := h.updateNextCumulativeWeightLimit v
  · rw [hupdate]
    exact hs'
  · rw [hupdate]
    exact h

theorem WeightInv.concat (h : WeightInv n window weightOf version s) {e : WeighedBlock} (hb : e.bl ∈ n.blocks)
    (htip : tip n.id (s.db.map WeighedBlock.bl) = some e.bl.prevId)
    (he : Core.getNextLongTermBlockWeight window (version (WeighedChain.ids n.toHashFunctions s.db))
      (WeighedChain.infos s.db) (weightOf (n.id e.bl)) = some e.longTermWeight) :
    WeightInv n window weightOf version { s with db := s.db ++ [e] } := by
  refine ⟨⟨?_, h.stored.weighed.concat he⟩, h.cache, h.calls⟩
  rw [List.map_append, List.map_singleton]
  exact h.stored.branch.concat htip hb

theorem WeightInv.addBlock (h : WeightInv n window weightOf version s) {b : Block} (hb : b ∈ n.blocks) (coins : UInt64)
    (passes stores : Bool) :
    WeightInv n window weightOf version (s.addBlock n.toHashFunctions window weightOf version b coins passes stores) := by
  rw [WeighedChain.addBlock]
  by_cases hchecks : b.prevId = (tip (getBlockHash n.toHashFunctions) (s.db.map WeighedBlock.bl)).getD nullHash ∧
      passes = true
  · rw [if_pos hchecks]
    obtain ⟨longTerm, s', hnext, hpure, hs', hdb⟩ | hnext :=
      h.getNextLongTermBlockWeight (version (WeighedChain.ids n.toHashFunctions s.db)) (weightOf (n.id b))
    · rw [hnext]
      cases stores with
      | false => exact hs'
      | true =>
        obtain ⟨below, e, hsplit⟩ := (List.eq_nil_or_concat' s.db).resolve_left h.ne_nil
        have htip : tip n.id (s'.db.map WeighedBlock.bl) = some b.prevId := by
          rw [hdb, hchecks.1, hsplit, List.map_append, List.map_singleton, tip_concat]
          rfl
        rw [← hdb] at hpure
        exact (hs'.concat (e := ⟨b, ⟨coins, weightOf (n.id b), longTerm⟩⟩) hb htip
          hpure).getD_updateNextCumulativeWeightLimit _
    · rw [hnext]
      exact h
  · rw [if_neg hchecks]
    exact h

theorem WeightInv.step (h : WeightInv n window weightOf version s) {op : WeightOp}
    (hseen : ∀ b coins passes stores, op = .addBlock b coins passes stores → b ∈ n.blocks) :
    WeightInv n window weightOf version (s.step n.toHashFunctions window weightOf version op) := by
  cases op with
  | addBlock b coins passes stores => exact h.addBlock (hseen b coins passes stores rfl) coins passes stores
  | popBlock =>
    rw [WeighedChain.step]
    split_ifs with hlen
    · obtain ⟨below, e, hsplit⟩ := (List.eq_nil_or_concat' s.db).resolve_left h.ne_nil
      refine ⟨?_, h.cache, h.calls⟩
      have hstored := h.stored
      rw [hsplit, List.length_append, List.length_singleton] at hlen
      rw [hsplit] at hstored
      simp only [hsplit, List.dropLast_concat]
      exact hstored.left (List.length_pos_iff.mp (by omega))
    · exact h
  | updateLimit v => exact h.getD_updateNextCumulativeWeightLimit v
  | restart data pos heap => exact ⟨h.stored, fun hw => remembered_initial hw data pos heap, h.calls⟩

def WeighedChain.started (window : ℕ) (db : List WeighedBlock) (data : ℕ → UInt64) (pos : ℕ → ℤ) (heap : ℤ → ℕ) :
    WeighedChain :=
  ⟨db, .initial window data pos heap, .initial, []⟩

end

end Velkavo.Core
