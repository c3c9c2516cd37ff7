import Velkavo.Core.ScanTable

namespace Velkavo.Core

open Cryptonote Rct PartialLookup

variable {k : CurveFunctions} {v : InputVerifier} {s : TxChain} {now : UInt64} {hfVersion : UInt8}

def OutputData.ctKey (o : OutputData) : CtKey := { dest := o.pubkey, mask := o.commitment }

def lastHeight (members : List OutputData) : ℕ := (members.getLast?.map OutputData.height).getD 0

theorem lastHeight_cons_cons (o o' : OutputData) (members : List OutputData) :
    lastHeight (o :: o' :: members) = lastHeight (o' :: members) := by
  rw [lastHeight, List.getLast?_cons_cons, lastHeight]

variable {members outputs : List OutputData} {pmax : ℕ} {tx : Transaction} {txin : TxinToKey}
  {rings : List (List OutputData)}

theorem scanMembers_of_map_eq {amount : UInt64} {idx : List UInt64} (pmax : ℕ)
    (hfound : Found (getOutputKey k s amount) idx outputs)
    (hmap : idx.map (getOutputKey k s amount) = members.map some)
    (hunlocked : ∀ o ∈ members, isTxSpendtimeUnlocked s now hfVersion o.unlockTime = true) :
    scanMembers k s now hfVersion amount idx outputs pmax =
      some (members.map OutputData.ctKey, max pmax (lastHeight members)) := by
  induction idx generalizing outputs members pmax with
  | nil =>
    cases members with
    | nil => rw [scanMembers, lastHeight, List.getLast?_nil, Option.map_none, Option.getD_none, Nat.max_zero,
        List.map_nil]
    | cons o members => cases hmap
  | cons i idx ih =>
    cases members with
    | nil => cases hmap
    | cons o members =>
      rw [List.map_cons, List.map_cons, List.cons.injEq] at hmap
      rw [scanMembers, hfound.head?_or, hmap.1, Option.bind_eq_bind, Option.bind_some,
        if_pos (hunlocked o List.mem_cons_self)]
      dsimp only
      rw [ih _ hfound.tail hmap.2 fun o' ho' => hunlocked o' (List.mem_cons_of_mem o ho')]
      -- the height counts when this member is the last one
      cases members with
      | nil =>
        obtain rfl := List.map_eq_nil_iff.mp hmap.2
        simp [lastHeight, OutputData.ctKey, max_def_lt]
      | cons o' members =>
        cases idx with
        | nil => cases hmap.2
        | cons j idx =>
          rw [lastHeight_cons_cons]
          simp [OutputData.ctKey]

theorem members_of_scanMembers {amount : UInt64} {idx : List UInt64}
    {r : List CtKey × ℕ} (hfound : Found (getOutputKey k s amount) idx outputs)
    (h : scanMembers k s now hfVersion amount idx outputs pmax = some r) :
    ∃ members : List OutputData, idx.map (getOutputKey k s amount) = members.map some ∧
      ∀ o ∈ members, isTxSpendtimeUnlocked s now hfVersion o.unlockTime = true := by
  induction idx generalizing outputs pmax r with
  | nil => exact ⟨[], rfl, fun o ho => absurd ho List.not_mem_nil⟩
  | cons i idx ih =>
    rw [scanMembers, hfound.head?_or] at h
    obtain ⟨o, ho, h⟩ := Option.bind_eq_some_iff.mp h
    split at h
    · rename_i hunlocked
      obtain ⟨r', hr', -⟩ := Option.bind_eq_some_iff.mp h
      obtain ⟨members, hmap, hall⟩ := ih hfound.tail hr'
      refine ⟨o :: members, by rw [List.map_cons, List.map_cons, ho, hmap], ?_⟩
      intro o' ho'
      rcases List.mem_cons.mp ho' with rfl | ho'
      · exact hunlocked
      · exact hall o' ho'
    · cases h

theorem found_fetchOutputs
    (hcons : Consistent k v s tx) (htxin : txin ∈ toKeyInputs tx)
    (h : fetchOutputs k s (v.getTransactionPrefixHash tx) txin = some outputs) :
    Found (getOutputKey k s txin.amount) (ring txin) outputs := by
  dsimp only [fetchOutputs] at h
  split at h
  · split_ifs at h
    cases h
    exact found_lookupWhile _ _
  · rename_i table htable
    have hfound := hcons txin htxin table htable
    split_ifs at h
    · cases h
      exact hfound.append (found_lookupWhile _ _)
    · cases h
      exact hfound

theorem exists_fetchOutputs (txPrefixHash : Hash)
    (hmap : (ring txin).map (getOutputKey k s txin.amount) = members.map some) :
    ∃ outputs, fetchOutputs k s txPrefixHash txin = some outputs := by
  dsimp only [fetchOutputs]
  split
  · rw [if_neg (not_not.mpr _)]
    · exact ⟨_, rfl⟩
    · rw [getOutputKeys, lookupWhile_of_map_eq hmap, ← List.length_map, hmap, List.length_map]
  · rename_i table htable
    split_ifs with hpart hlen
    · have hrest : ((ring txin).drop table.length).map (getOutputKey k s txin.amount) =
          (members.drop table.length).map some := by rw [List.map_drop, hmap, List.map_drop]
      apply absurd hlen
      rw [getOutputKeys, lookupWhile_of_map_eq hrest, not_not, ← List.length_map, hrest, List.length_map]
    · exact ⟨_, rfl⟩
    · exact ⟨_, rfl⟩

structure RingOk (k : CurveFunctions) (s : TxChain) (now : UInt64) (hfVersion : UInt8) (txin : TxinToKey)
    (members : List OutputData) : Prop where
  nonempty : txin.keyOffsets ≠ []
  unspent : haveTxKeyimgAsSpent s txin.kImage = false
  members_eq : (ring txin).map (getOutputKey k s txin.amount) = members.map some
  unlocked : ∀ o ∈ members, isTxSpendtimeUnlocked s now hfVersion o.unlockTime = true

theorem RingOk.length_eq (h : RingOk k s now hfVersion txin members) :
    members.length = txin.keyOffsets.length := by
  have hlen := congrArg List.length h.members_eq
  rw [List.length_map, List.length_map, ring, length_relativeOutputOffsetsToAbsolute] at hlen
  exact hlen.symm

theorem checkTxInput_of_ringOk (sigIndex pmax : ℕ)
    (hversion : tx.version ≠ 1) (hcons : Consistent k v s tx) (htxin : txin ∈ toKeyInputs tx)
    (h : RingOk k s now hfVersion txin members) :
    checkTxInput k v s now hfVersion tx sigIndex txin pmax =
      some (members.map OutputData.ctKey, max pmax (lastHeight members)) := by
  obtain ⟨outputs, hfetch⟩ := exists_fetchOutputs (v.getTransactionPrefixHash tx) h.members_eq
  have hfound := found_fetchOutputs hcons htxin hfetch
  have hscan := scanMembers_of_map_eq pmax hfound h.members_eq h.unlocked
  have hne : txin.keyOffsets.isEmpty = false := List.isEmpty_eq_false_iff.mpr h.nonempty
  rw [checkTxInput, scanOutputkeysForIndexes, hne, if_neg Bool.false_ne_true, hfetch]
  simp [hscan, h.length_eq, hversion]

theorem ringOk_of_checkTxInput {sigIndex : ℕ} {r : List CtKey × ℕ}
    (hcons : Consistent k v s tx) (htxin : txin ∈ toKeyInputs tx)
    (hunspent : haveTxKeyimgAsSpent s txin.kImage = false)
    (h : checkTxInput k v s now hfVersion tx sigIndex txin pmax = some r) :
    ∃ members, RingOk k s now hfVersion txin members := by
  obtain ⟨r', hr', -⟩ := Option.bind_eq_some_iff.mp h
  rw [scanOutputkeysForIndexes] at hr'
  split_ifs at hr' with hne
  obtain ⟨outputs, hfetch, hscan⟩ := Option.bind_eq_some_iff.mp hr'
  obtain ⟨members, hmap, hunlocked⟩ := members_of_scanMembers (found_fetchOutputs hcons htxin hfetch) hscan
  exact ⟨members, by simpa using hne, hunspent, hmap, hunlocked⟩

def InputOk (k : CurveFunctions) (s : TxChain) (now : UInt64) (hfVersion : UInt8) (i : Txin)
    (members : List OutputData) : Prop :=
  ∃ txin, i = .toKey txin ∧ RingOk k s now hfVersion txin members

def maxUsedBlockHeight (pmax : ℕ) (rings : List (List OutputData)) : ℕ :=
  rings.foldl (fun pmax members => max pmax (lastHeight members)) pmax

theorem checkIns_of_inputsOk {vin : List Txin}
    (sigIndex pmax : ℕ) (hversion : tx.version ≠ 1) (hcons : Consistent k v s tx) (hsub : vin ⊆ tx.vin)
    (h : List.Forall₂ (InputOk k s now hfVersion) vin rings) :
    checkIns k v s now hfVersion tx sigIndex vin pmax =
      .ok (rings.map (List.map OutputData.ctKey), maxUsedBlockHeight pmax rings) := by
  induction h generalizing sigIndex pmax with
  | nil => rfl
  | @cons i members vin rings hi _ ih =>
    obtain ⟨txin, rfl, hring⟩ := hi
    have htxin : txin ∈ toKeyInputs tx := mem_toKeyInputs.mpr (hsub List.mem_cons_self)
    rw [checkIns, require_bind]
    refine ⟨by simpa using hring.nonempty, ?_⟩
    rw [require_bind]
    refine ⟨by simpa using hring.unspent, ?_⟩
    rw [require_bind]
    refine ⟨by simp [hversion], ?_⟩
    rw [checkTxInput_of_ringOk sigIndex pmax hversion hcons htxin hring]
    dsimp only
    rw [ih (sigIndex + 1) _ fun j hj => hsub (List.mem_cons_of_mem _ hj)]
    rfl

theorem inputsOk_of_checkIns {vin : List Txin} {sigIndex : ℕ}
    {r : List (List CtKey) × ℕ} (hcons : Consistent k v s tx) (hsub : vin ⊆ tx.vin)
    (h : checkIns k v s now hfVersion tx sigIndex vin pmax = .ok r) :
    ∃ rings, List.Forall₂ (InputOk k s now hfVersion) vin rings := by
  induction vin generalizing sigIndex pmax r with
  | nil => exact ⟨[], .nil⟩
  | cons i vin ih =>
    cases i with
    | toKey txin =>
      have htxin : txin ∈ toKeyInputs tx := mem_toKeyInputs.mpr (hsub List.mem_cons_self)
      simp only [checkIns, require_bind, Bool.not_eq_true'] at h
      obtain ⟨-, hunspent, -, h⟩ := h
      split at h
      · cases h
      · rename_i keys pmax' hcheck
        obtain ⟨members, hring⟩ := ringOk_of_checkTxInput hcons htxin hunspent hcheck
        obtain ⟨r', hr', -⟩ := Effects.bind_eq_ok.mp h
        obtain ⟨rings, hrings⟩ := ih (fun j hj => hsub (List.mem_cons_of_mem _ hj)) hr'
        exact ⟨members :: rings, .cons ⟨txin, rfl, hring⟩ hrings⟩
    | gen height => cases h
    | toScript prev prevout sigset => cases h
    | toScripthash prev prevout script sigset => cases h

theorem le_maxUsedBlockHeight (pmax : ℕ) (rings : List (List OutputData)) :
    pmax ≤ maxUsedBlockHeight pmax rings := by
  induction rings generalizing pmax with
  | nil => exact le_refl pmax
  | cons members rings ih => exact (le_max_left _ _).trans (ih _)

theorem lastHeight_le_maxUsedBlockHeight (pmax : ℕ)
    (h : members ∈ rings) : lastHeight members ≤ maxUsedBlockHeight pmax rings := by
  induction rings generalizing pmax with
  | nil => cases h
  | cons members' rings ih =>
    rcases List.mem_cons.mp h with rfl | h
    · exact (le_max_right _ _).trans (le_maxUsedBlockHeight _ _)
    · exact ih _ h

theorem maxUsedBlockHeight_le {bound : ℕ} (hpmax : pmax ≤ bound)
    (h : ∀ members ∈ rings, lastHeight members ≤ bound) : maxUsedBlockHeight pmax rings ≤ bound := by
  induction rings generalizing pmax with
  | nil => exact hpmax
  | cons members rings ih =>
    apply ih (max_le hpmax (h members List.mem_cons_self))
    exact fun members' hmem => h members' (List.mem_cons_of_mem _ hmem)

end Velkavo.Core
