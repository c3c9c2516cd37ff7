import Velkavo.Core.BlockReward
import Velkavo.Cryptonote.AccountAddress

namespace Velkavo.Core

open Cryptonote ByteCodec Rct

def getTransactionWeightClawback (tx : Transaction) (nPaddedOutputs : ℕ) : Option ℕ :=
  let elements := if tx.rctSignatures.type.isBulletproofPlus then 6 else 9
  let bpBase := 32 * (elements + 7 * 2) / 2
  if nPaddedOutputs ≤ 2 then some 0
  else
    let nlr := Nat.clog 2 nPaddedOutputs + 6
    let bpSize := 32 * (elements + 2 * nlr)
    if tx.vout.length > bulletproofMaxOutputs then none
    else if bpBase * nPaddedOutputs < bpSize then none
    else some ((bpBase * nPaddedOutputs - bpSize) * 4 / 5)

def getTransactionWeight (tx : Transaction) : Option UInt64 :=
  let blobSize := ((transaction false).write tx).length
  if tx.pruned then some 0xffffffffffffffff
  else if tx.version < 2 then some (UInt64.ofNat blobSize)
  else if tx.rctSignatures.type.isBulletproofPlus then
    (getTransactionWeightClawback tx (nBulletproofPlusMaxAmounts tx.rctSignatures.p.bulletproofsPlus)).map
      fun clawback => UInt64.ofNat (blobSize + clawback)
  else if tx.rctSignatures.type.isBulletproof then
    (getTransactionWeightClawback tx (nBulletproofMaxAmounts tx.rctSignatures.p.bulletproofs)).map
      fun clawback => UInt64.ofNat (blobSize + clawback)
  else some (UInt64.ofNat blobSize)

/-- What is computed by code that is not modelled here: the keys of a call, which are random, and the outputs' keys. -/
structure MinerFunctions where
  txPublicKey : ℕ → PublicKey
  sortTxExtra : Bytes → Option Bytes
  deriveOutput : ℕ → AccountPublicAddress → ℕ → Option (PublicKey × ViewTag)

def txExtraTagPubkey : UInt8 := 1

def txExtraNonce : UInt8 := 2

def txExtraNonceMaxCount : ℕ := 255

def addTxPubKeyToExtra (txExtra : Bytes) (txPubKey : PublicKey) : Bytes := txExtra ++ txExtraTagPubkey :: txPubKey.bytes

def addExtraNonceToTxExtra (txExtra extraNonce : Bytes) : Option Bytes :=
  if extraNonce.length ≤ txExtraNonceMaxCount then
    some (txExtra ++ txExtraNonce :: (writeVarint extraNonce.length ++ extraNonce))
  else none

def decomposeDigits (dustThreshold : UInt64) : ℕ → UInt64 → UInt64 → UInt64 → Bool → List UInt64
  | 0, _, _, dust, isDustHandled => if !isDustHandled && dust ≠ 0 then [dust] else []
  | n + 1, amount, order, dust, isDustHandled =>
    if amount = 0 then if !isDustHandled && dust ≠ 0 then [dust] else []
    else
      let chunk := amount % 10 * order
      if dust + chunk ≤ dustThreshold then
        decomposeDigits dustThreshold n (amount / 10) (order * 10) (dust + chunk) isDustHandled
      else
        let handled := !isDustHandled && dust ≠ 0
        (if handled then [dust] else []) ++ (if chunk ≠ 0 then [chunk] else []) ++
          decomposeDigits dustThreshold n (amount / 10) (order * 10) dust (isDustHandled || handled)

def decomposeAmountIntoDigits (amount dustThreshold : UInt64) : List UInt64 :=
  decomposeDigits dustThreshold 20 amount 1 0 false

def defaultDustThreshold : UInt64 := 2000000000

def baseRewardClampThreshold : UInt64 := 100000000

def mergeFirst : List UInt64 → List UInt64
  | a :: b :: rest => (b + a) :: rest
  | amounts => amounts

def mergeOuts (maxOuts : ℕ) (amounts : List UInt64) : List UInt64 := mergeFirst^[amounts.length - maxOuts] amounts

def minerOutAmounts (blockReward height : UInt64) (maxOuts : ℕ) (version : UInt8) : Option (List UInt64) :=
  let outAmounts := decomposeAmountIntoDigits blockReward (if version ≥ 2 then 0 else defaultDustThreshold)
  if maxOuts < 1 then none
  else if height = 0 ∨ version ≥ 4 then some (mergeOuts maxOuts outAmounts)
  else if outAmounts.length ≤ maxOuts then some outAmounts
  else none

def setTxOut (amount : UInt64) (outKey : PublicKey × ViewTag) (useViewTags : Bool) : TxOut :=
  ⟨amount, if useViewTags then .toTaggedKey outKey.1 outKey.2 else .toKey outKey.1⟩

structure MinerTxArgs where
  height : UInt64
  medianWeight : UInt64
  alreadyGeneratedCoins : UInt64
  fee : UInt64
  minerAddress : AccountPublicAddress
  extraNonce : Bytes
  maxOuts : ℕ
  hardForkVersion : UInt8

def minerExtra (m : MinerFunctions) (x : MinerTxArgs) (call : ℕ) : Option Bytes :=
  let extra := addTxPubKeyToExtra [] (m.txPublicKey call)
  (if x.extraNonce = [] then some extra else addExtraNonceToTxExtra extra x.extraNonce).bind m.sortTxExtra

def clampReward (blockReward : UInt64) (version : UInt8) : UInt64 :=
  if version ≥ 2 ∧ version < 4 then blockReward - blockReward % baseRewardClampThreshold else blockReward

def minerOuts (m : MinerFunctions) (x : MinerTxArgs) (call : ℕ) (outAmounts : List UInt64) : Option (List TxOut) :=
  outAmounts.zipIdx.mapM fun a => (m.deriveOutput call x.minerAddress a.2).map
    fun outKey => setTxOut a.1 outKey (x.hardForkVersion ≥ hfVersionViewTags)

def constructMinerTx (m : MinerFunctions) (x : MinerTxArgs) (call : ℕ) (currentBlockWeight : UInt64) : Option Transaction := do
  let extra ← minerExtra m x call
  let reward ← getBlockReward x.medianWeight currentBlockWeight x.alreadyGeneratedCoins x.hardForkVersion
  let blockReward := clampReward (reward + x.fee) x.hardForkVersion
  let outAmounts ← minerOutAmounts blockReward x.height x.maxOuts x.hardForkVersion
  let vout ← minerOuts m x call outAmounts
  guard (outAmounts.foldl (· + ·) 0 = blockReward)
  return {
    version := if x.hardForkVersion ≥ 4 then 2 else 1
    unlockTime := x.height + cryptonoteMinedMoneyUnlockWindow
    vin := [.gen x.height]
    vout := vout
    extra := extra
    signatures := []
    rctSignatures := default
    pruned := false }

theorem map_of_mapM {α β γ : Type} {f : α → Option β} {g : β → γ} {h : α → γ} (hf : ∀ a b, f a = some b → g b = h a)
    {l : List α} {l' : List β} (hl : l.mapM f = some l') : l'.map g = l.map h := by
  induction l generalizing l' with
  | nil =>
    cases hl
    rfl
  | cons a l ih =>
    rw [List.mapM_cons] at hl
    obtain ⟨b, hb, hl⟩ := Option.bind_eq_some_iff.mp hl
    obtain ⟨rest, hrest, hl⟩ := Option.bind_eq_some_iff.mp hl
    cases hl
    rw [List.map_cons, List.map_cons, hf a b hb, ih hrest]

theorem getOutsMoneyAmount_constructMinerTx {m : MinerFunctions} {x : MinerTxArgs} {call : ℕ} {weight : UInt64}
    {tx : Transaction} (h : constructMinerTx m x call weight = some tx) (hversion : 4 ≤ x.hardForkVersion) :
    ∃ reward, getBlockReward x.medianWeight weight x.alreadyGeneratedCoins x.hardForkVersion = some reward ∧
      getOutsMoneyAmount tx = reward + x.fee := by
  rw [constructMinerTx] at h
  obtain ⟨extra, -, h⟩ := Option.bind_eq_some_iff.mp h
  obtain ⟨reward, hreward, h⟩ := Option.bind_eq_some_iff.mp h
  obtain ⟨outAmounts, -, h⟩ := Option.bind_eq_some_iff.mp h
  obtain ⟨vout, hvout, h⟩ := Option.bind_eq_some_iff.mp h
  obtain ⟨u, hguard, h⟩ := Option.bind_eq_some_iff.mp h
  have hclamp : ¬(x.hardForkVersion ≥ 2 ∧ x.hardForkVersion < 4) := fun hlow => absurd hversion (UInt8.not_le.mpr hlow.2)
  have hsum : outAmounts.foldl (· + ·) 0 = reward + x.fee := by
    rw [clampReward, if_neg hclamp] at hguard
    by_contra hne
    simp [guard, hne] at hguard
  have hamounts : vout.map TxOut.amount = outAmounts := by
    rw [map_of_mapM (g := TxOut.amount) (h := Prod.fst) ?_ hvout, List.zipIdx_map_fst]
    intro a out hout
    obtain ⟨outKey, -, rfl⟩ := Option.map_eq_some_iff.mp hout
    rfl
  cases h
  refine ⟨reward, hreward, ?_⟩
  rw [getOutsMoneyAmount, hamounts, hsum]

theorem length_iterate_mergeFirst (n : ℕ) (l : List UInt64) : (mergeFirst^[n] l).length ≤ max 1 (l.length - n) := by
  induction n generalizing l with
  | zero => exact le_max_right _ _
  | succ n ih =>
    rw [Function.iterate_succ_apply]
    refine (ih _).trans (max_le (le_max_left _ _) ?_)
    match l with
    | [] => simp [mergeFirst]
    | [a] => simp [mergeFirst]
    | a :: b :: rest =>
      refine le_max_of_le_right ?_
      simp only [mergeFirst, List.length_cons]
      omega

theorem length_vout_constructMinerTx {m : MinerFunctions} {x : MinerTxArgs} {call : ℕ} {weight : UInt64} {tx : Transaction}
    (h : constructMinerTx m x call weight = some tx) (hversion : 4 ≤ x.hardForkVersion) (houts : x.maxOuts = 1) :
    tx.vout.length ≤ 1 := by
  rw [constructMinerTx] at h
  obtain ⟨extra, -, h⟩ := Option.bind_eq_some_iff.mp h
  obtain ⟨reward, -, h⟩ := Option.bind_eq_some_iff.mp h
  obtain ⟨outAmounts, hamounts, h⟩ := Option.bind_eq_some_iff.mp h
  obtain ⟨vout, hvout, h⟩ := Option.bind_eq_some_iff.mp h
  obtain ⟨u, -, h⟩ := Option.bind_eq_some_iff.mp h
  cases h
  have hlength : vout.length = outAmounts.length := by
    have hmap := congrArg List.length (map_of_mapM (g := fun _ => ()) (h := fun _ => ()) (fun _ _ _ => rfl) hvout)
    simpa using hmap
  rw [minerOutAmounts, houts, if_neg (by decide), if_pos (.inr hversion)] at hamounts
  cases hamounts
  rw [hlength, mergeOuts]
  refine (length_iterate_mergeFirst _ _).trans (max_le le_rfl ?_)
  omega

end Velkavo.Core
